import ScopedLisp.Proofs.Session.Contract

namespace ScopedLisp

open SpecialForm

/-- All pairs in the value stand somewhere in what was read and are proper lists, the bodies of
closures stand there at the heads of pairs, procedures are arithmetic ones, and no boolean is
false. -/
def Value.DrawnFrom (read : List Value) : Value → Prop
  | pair head tail => (∃ e ∈ read, (pair head tail).PartOf e) ∧ tail.unchain.2 = nil ∧
    DrawnFrom read head ∧ DrawnFrom read tail
  | closure _ _ _ body _ => (∃ e ∈ read, ∃ tail, (pair body tail).PartOf e) ∧ DrawnFrom read body
  | native label procedure => ∃ op : Arithmetic, label = op.symbol ∧ procedure = .arithmetic op
  | boolean b => b = true
  | _ => True

namespace Value

variable {read : List Value} {v e : Value}

theorem DrawnFrom.part {part : Value} (hv : v.DrawnFrom read) (h : part.PartOf v) :
    part.DrawnFrom read :=
  h.inherits hv (fun hpair => hpair.2.2.1) fun hpair => hpair.2.2.2

/-- What was read is drawn from itself, and so is every part of it. -/
theorem Readable.drawnFrom (hv : v.Readable) (he : e ∈ read) (h : v.PartOf e) :
    v.DrawnFrom read := by
  induction v with
  | pair head tail ihhead ihtail =>
    exact ⟨⟨e, he, h⟩, hv.2.2, ihhead hv.1 (PartOf.trans (.head .self _) h),
      ihtail hv.2.1 (PartOf.trans (.tail .self _) h)⟩
  | closure | native => exact absurd hv id
  | boolean b => exact hv
  | _ => trivial

theorem DrawnFrom.more (hv : v.DrawnFrom read) (more : List Value) :
    v.DrawnFrom (read ++ more) := by
  induction v with
  | pair head tail ihhead ihtail =>
    obtain ⟨⟨e, he, hin⟩, hproper, hhead, htail⟩ := hv
    exact ⟨⟨e, List.mem_append_left _ he, hin⟩, hproper, ihhead hhead, ihtail htail⟩
  | closure id name params body scope ih =>
    obtain ⟨⟨e, he, hin⟩, hbody⟩ := hv
    exact ⟨⟨e, List.mem_append_left _ he, hin⟩, ih hbody⟩
  | native => exact hv
  | boolean => exact hv
  | _ => trivial

end Value

/-- Expressions and values are drawn from what was read. -/
def provenance (read : List Value) : Contract where
  Holds σ := σ.Binds (Value.DrawnFrom read)
  Values _ v := v.DrawnFrom read
  Code _ _ e := e.DrawnFrom read
  Allows e := ¬ e.IsImproper
  values_later hv _ := hv
  code_later he _ := he
  binds hσ := hσ
  newClosureId hσ := hσ
  bind hσ _ hv ρ x := hσ.bind hv ρ x
  enter hσ _ _ _ _ scope hf _ hbs := ⟨hσ.enter scope hbs, hf.2⟩
  number _ _ := trivial
  symbol _ _ := trivial
  nil _ := trivial
  constant he _ := he
  quoted he _ hv := he.part (.tail (quotedPart_partOf hv) _)
  branch he _ hc hv := he.part (.tail (expressions_partOf hc hv) _)
  closure he hl _ := by
    obtain ⟨tail, hin⟩ := hl.body_partOf
    have hcell := he.part hin
    obtain ⟨e, he, hin⟩ := hcell.1
    exact ⟨⟨e, he, tail, hin⟩, hcell.2.2.1⟩
  head he _ := he.part (.head .self _)
  argument he _ hv := he.part (.tail (Value.partOf_of_mem_unchain hv) _)
  allows he := he
  proper he := .inl he.2.1

def sessionProvenance : SessionContract where
  given := provenance
  new := (Store.binds_empty _).newGlobal fun op => ⟨op, rfl, rfl⟩
  code hread he _ := (hread _ he).drawnFrom he .self
  holds_more hσ more := hσ.imp fun _ hv => hv.more more
  values_more hv more := hv.more more
  allows_more he _ := he

/-- Whatever a session binds, after a call or in the course of one, and whatever its calls give, is
drawn from what it has read until then, and no call fails for an improper chain of arguments. -/
theorem session_values_are_drawn_from_what_was_read :
    (∀ {read σ}, Session.Reaches read σ → ∀ ρ x v, σ.local? ρ x = some v → v.DrawnFrom read) ∧
    ∀ {log σ}, Session log σ →
      (∀ c v, (c, .ok v) ∈ log → v.DrawnFrom log.read) ∧
      ∀ c e, (c, .error (.eval e)) ∈ log →
        (∀ kind, e ≠ .typeMismatch "apply" "proper argument list" kind) ∧
          e ≠ .malformedForm .conditional .improperArguments := by
  refine ⟨fun h ρ x v hv => sessionProvenance.reaches h hv, fun h => ?_⟩
  obtain ⟨-, -, hvalues, hfails⟩ := sessionProvenance.session h
  refine ⟨hvalues, fun c e he => ⟨fun kind heq => ?_, fun heq => ?_⟩⟩
  · exact hfails c e he (heq ▸ ⟨rfl, rfl⟩)
  · exact hfails c e he (heq ▸ ⟨rfl, rfl⟩)

/-- A function that was defined is drawn from its definition, and so is what it is bound to. -/
theorem called_function_is_drawn_from_definition :
    ∃ σ, Session definedAndCalledF σ ∧
      (∀ v, σ.local? Session.root "f" = some v →
        v.DrawnFrom [namesItself, .list [.symbol "f"]]) ∧
      closureF.DrawnFrom [namesItself, .list [.symbol "f"]] := by
  obtain ⟨σ, hsession⟩ := session_definedAndCalledF
  have hdrawn := session_values_are_drawn_from_what_was_read
  rw [← read_definedAndCalledF]
  refine ⟨σ, hsession, fun v hv => hdrawn.1 (.after hsession) _ _ v hv, ?_⟩
  exact (hdrawn.2 hsession).1 (.evaluate "(f)") _ (by simp [definedAndCalledF])

end ScopedLisp
