import ScopedLisp.Proofs.Evaluation.Parameters
import ScopedLisp.Proofs.Scoping.Nesting
import ScopedLisp.Proofs.Session.Contract

namespace ScopedLisp

open SpecialForm Store

/-- Closures in the value, or in the body of one, have scopes of the store, and so shallow ones that
their code gets by with scopes of depth `n`. -/
def Value.FitsIn (n : Nat) (σ : Store) : Value → Prop
  | pair head tail => FitsIn n σ head ∧ FitsIn n σ tail
  | closure _ _ _ body scope =>
    scope < σ.scopes.size ∧ σ.depth scope + 1 + body.nesting ≤ n ∧ FitsIn n σ body
  | _ => True

namespace Value

variable {n n' : Nat} {σ σ' : Store} {v : Value}

theorem FitsIn.later (hv : v.FitsIn n σ) (h : σ.LeadsTo σ') : v.FitsIn n σ' := by
  induction v with
  | pair _ _ ihhead ihtail => exact ⟨ihhead hv.1, ihtail hv.2⟩
  | closure id name params body scope ih =>
    obtain ⟨hscope, hdepth, hbody⟩ := hv
    refine ⟨Nat.lt_of_lt_of_le hscope h.size_le, ?_, ih hbody⟩
    rwa [h.depth hscope]
  | _ => trivial

theorem FitsIn.mono (hv : v.FitsIn n σ) (h : n ≤ n') : v.FitsIn n' σ := by
  induction v with
  | pair _ _ ihhead ihtail => exact ⟨ihhead hv.1, ihtail hv.2⟩
  | closure id name params body scope ih => exact ⟨hv.1, Nat.le_trans hv.2.1 h, ih hv.2.2⟩
  | _ => trivial

theorem FitsIn.part {part : Value} (hv : v.FitsIn n σ) (h : part.PartOf v) : part.FitsIn n σ :=
  h.inherits hv (fun hpair => hpair.1) fun hpair => hpair.2

theorem Readable.fitsIn (hv : v.Readable) (n : Nat) (σ : Store) : v.FitsIn n σ := by
  induction v with
  | pair _ _ ihhead ihtail => exact ⟨ihhead hv.1, ihtail hv.2.1⟩
  | closure => exact absurd hv id
  | _ => trivial

/-- The expression gets by with scopes of depth `n` when it is evaluated in the scope `ρ`. -/
structure Fits (n : Nat) (σ : Store) (ρ : ScopeId) (e : Value) : Prop where
  scope : ρ < σ.scopes.size
  depth : σ.depth ρ + e.nesting ≤ n
  values : e.FitsIn n σ

theorem Fits.part {ρ : ScopeId} {part : Value} (hv : v.Fits n σ ρ) (h : part.PartOf v)
    (hle : part.nesting ≤ v.nesting) : part.Fits n σ ρ :=
  ⟨hv.scope, Nat.le_trans (Nat.add_le_add_left hle _) hv.depth, hv.values.part h⟩

end Value

/-- No scope is deeper than `n`. -/
def Store.DepthAtMost (n : Nat) (σ : Store) : Prop := ∀ i < σ.scopes.size, σ.depth i ≤ n

theorem Store.DepthAtMost.of_size_eq {n : Nat} {σ σ' : Store} (hσ : σ.DepthAtMost n)
    (h : σ.LeadsTo σ') (hsize : σ'.scopes.size = σ.scopes.size) : σ'.DepthAtMost n := by
  intro i hi
  rw [hsize] at hi
  rw [h.depth hi]
  exact hσ i hi

/-- No scope is deeper than `n`, and no value or expression needs one that is. -/
def shallow (n : Nat) : Contract where
  Holds σ := σ.DepthAtMost n ∧ σ.Binds (Value.FitsIn n σ)
  Values σ v := v.FitsIn n σ
  Code σ ρ e := e.Fits n σ ρ
  Allows _ := True
  values_later hv h := hv.later h
  code_later {σ σ' ρ e} he h := by
    refine ⟨Nat.lt_of_lt_of_le he.scope h.size_le, ?_, he.values.later h⟩
    rw [h.depth he.scope]
    exact he.depth
  binds hσ := hσ.2
  newClosureId {σ} hσ :=
    ⟨hσ.1.of_size_eq (.newClosureId σ) rfl, hσ.2.imp fun _ hv => hv.later (.newClosureId σ)⟩
  bind {σ} hσ v hv ρ x :=
    ⟨hσ.1.of_size_eq (.bind σ ρ x v) (size_bind σ ρ x v),
      (hσ.2.bind hv ρ x).imp fun _ hw => hw.later (.bind σ ρ x v)⟩
  enter {σ} hσ id name params body scope hf bs hbs := by
    obtain ⟨hscope, hdepth, hbody⟩ := hf
    have hleads := LeadsTo.enter σ scope bs
    have hframe := depth_enter_frame hscope bs
    refine ⟨⟨fun i hi => ?_, (hσ.2.enter scope hbs).imp fun _ hw => hw.later hleads⟩, ?_⟩
    · rw [size_enter] at hi
      rcases Nat.lt_succ_iff_lt_or_eq.1 hi with hi | rfl
      · rw [hleads.depth hi]
        exact hσ.1 i hi
      · omega
    · refine ⟨by simp, ?_, hbody.later hleads⟩
      rwa [hframe]
  number _ _ := trivial
  symbol _ _ := trivial
  nil _ := trivial
  constant he _ := he.values
  quoted he _ hv := he.values.part (.tail (quotedPart_partOf hv) _)
  branch he hhead hc hv :=
    he.part (.tail (expressions_partOf hc hv) _) (Value.nesting_branch_le hhead hc hv)
  closure {σ ρ e l} he hl _ := by
    obtain ⟨tail, hin⟩ := hl.body_partOf
    -- One less is nested in the body, which leaves room for the frame of a call.
    have hdepth := he.depth
    rw [hl.nesting_eq] at hdepth
    have hbody : l.body.FitsIn n σ := he.values.part (.trans (.head .self _) hin)
    refine ⟨he.scope, ?_, hbody.later (.newClosureId σ)⟩
    rw [(LeadsTo.newClosureId σ).depth he.scope]
    omega
  head he hhead := he.part (.head .self _) (Value.nesting_head_le hhead)
  argument he hhead hv := he.part (.tail (Value.partOf_of_mem_unchain hv) _)
    (Value.nesting_argument_le hhead hv)
  allows _ := trivial
  proper _ := .inr fun _ => trivial

/-- There is as much depth as the root and all that is nested in what was read come to. -/
def sessionDepth : SessionContract where
  given read := shallow (1 + Value.deepest read)
  new := by
    refine ⟨fun i hi => ?_, (binds_empty _).newGlobal fun _ => trivial⟩
    rw [depth_eq, parent?_newGlobal_eq]
    exact Nat.le_refl 1
  code {read σ e} hread he hσ := by
    have hdepth : σ.depth Session.root = 1 := by
      rw [hσ.depth Session.root_lt_size, depth_eq, parent?_newGlobal_eq]
      rfl
    refine ⟨Nat.lt_of_lt_of_le Session.root_lt_size hσ.size_le, ?_, (hread e he).fitsIn _ σ⟩
    rw [hdepth]
    exact Nat.add_le_add_left (Value.nesting_le_deepest he) 1
  holds_more {read σ} hσ more := by
    have hle := Nat.add_le_add_left (Value.deepest_le_append read more) 1
    exact ⟨fun i hi => Nat.le_trans (hσ.1 i hi) hle, hσ.2.imp fun _ hv => hv.mono hle⟩
  values_more {read σ v} hv more :=
    hv.mono (Nat.add_le_add_left (Value.deepest_le_append read more) 1)
  allows_more _ _ := trivial

/-- At no time is a scope of a session deeper than one more than lambdas and definitions are nested
in what has been read. Wherever the session comes to a call of a closure, the body is evaluated in a
frame just one deeper than the scope of the closure, and this is so from when the first parameter is
bound until the call has ended. -/
theorem session_depth_is_bounded_by_nesting :
    (∀ {read σ}, Session.Reaches read σ → ∀ i < σ.scopes.size,
      σ.depth i ≤ 1 + Value.deepest read) ∧
    ∀ {read σ₀ e σ ρ head args σ₁ id name params body scope vs}, Session.Starts read σ₀ e →
      ComesTo σ₀ Session.root e σ ρ (.pair head args) →
      Applies σ ρ head args σ₁ (.closure id name params body scope) vs →
        scope < σ₁.scopes.size ∧
        (∀ bs, (σ₁.enter scope bs).depth σ₁.scopes.size = σ₁.depth scope + 1) ∧
        (vs.length = params.length → ∃ frame σ₂, IsFrame σ₁ scope params vs frame σ₂ ∧
          (∀ limit, apply .empty (limit + 1) (.closure id name params body scope) vs σ₁ =
            eval .empty limit frame body σ₂) ∧
          ∀ σ', PassesThrough σ₂ frame body σ' → σ'.depth frame = σ'.depth scope + 1) := by
  refine ⟨fun h i hi => (sessionDepth.reaches h).1 i hi, ?_⟩
  intro read σ₀ e σ ρ head args σ₁ id name params body scope vs hstarts hcourse hcall
  obtain ⟨hσ₀, he⟩ := sessionDepth.starts hstarts
  obtain ⟨hσ, -, he⟩ := Contract.comesTo hcourse he hσ₀
  obtain ⟨-, -, hclosure, -⟩ := Contract.applies hcall he hσ
  have hscope : scope < σ₁.scopes.size := hclosure.1
  refine ⟨hscope, depth_enter_frame hscope, fun hn => ?_⟩
  refine ⟨σ₁.scopes.size, σ₁.enter scope (params.zip vs), isFrame_enter hscope hn, ?_, ?_⟩
  · intro limit
    exact apply_closure .empty limit id name body scope hn σ₁
  · intro σ' hpasses
    have hleads := hpasses.leadsTo
    have hscope' := (LeadsTo.enter σ₁ scope (params.zip vs)).trans hleads
    rw [hleads.depth (by simp), depth_enter_frame hscope, hscope'.depth hscope]

/-- A function that gives itself is called at the root: no scope is deeper than two, and the frame
in which `apply` looks the function up is one deeper than the root. -/
theorem frame_of_function_is_one_deeper :
    (∃ σ, Session definedAndCalledF σ ∧ ∀ i < σ.scopes.size, σ.depth i ≤ 2) ∧
    Session.Starts [namesItself, .list [.symbol "f"]] storeWithF (.list [.symbol "f"]) ∧
      ∃ frame σ₂, (∀ limit, apply .empty (limit + 1) closureF [] storeWithF =
          eval .empty limit frame (.symbol "f") σ₂) ∧
        σ₂.depth frame = σ₂.depth 0 + 1 ∧
        apply .empty 2 closureF [] storeWithF = some (.ok closureF, σ₂) := by
  have hdepth := session_depth_is_bounded_by_nesting
  obtain ⟨σ, hsession⟩ := session_definedAndCalledF
  have hstarts : Session.Starts [namesItself, .list [.symbol "f"]] storeWithF
      (.list [.symbol "f"]) := by
    have hread : (Call.evaluate "(f)").read = .ok ([] ++ [.list [.symbol "f"]]) :=
      read_call
    have hbefore : evalAll .empty 1 Session.root [] storeWithF = some (.ok .nil, storeWithF) := rfl
    have h := Session.Starts.intro session_definedF hread hbefore
    rwa [read_definedF] at h
  have hcall : Applies storeWithF Session.root (.symbol "f") .nil storeWithF closureF [] := by
    refine ⟨rfl, storeWithF, ⟨1, ?_⟩, ⟨0, rfl⟩⟩
    have hvalue : EvalM.lookupResult storeWithF Session.root "f" = .ok closureF := by decide +kernel
    rw [eval, EvalM.lookup_apply, hvalue]
  obtain ⟨-, -, hframe⟩ := hdepth.2 hstarts (.here _ _ _) hcall
  obtain ⟨frame, σ₂, hframe, happly, hdeeper⟩ := hframe rfl
  refine ⟨⟨σ, hsession, ?_⟩, hstarts, frame, σ₂, happly, hdeeper σ₂ (.start (.here _ _ _)), ?_⟩
  · have hbound := hdepth.1 (.after hsession)
    rwa [read_definedAndCalledF] at hbound
  · have hvalue : storeWithF.get? 0 "f" = some closureF := by decide +kernel
    have hlookup : EvalM.lookupResult σ₂ frame "f" = .ok closureF := by
      rw [EvalM.lookupResult, hframe.other List.not_mem_nil, hvalue]
    refine (happly 1).trans ?_
    rw [eval, EvalM.lookup_apply, hlookup]

end ScopedLisp
