import ScopedLisp.Proofs.Renaming.Copy
import ScopedLisp.Proofs.Renaming.Evaluation
import ScopedLisp.Proofs.Session.Contract

namespace ScopedLisp

open SpecialForm Store Renaming

namespace Value

variable {σ : Store} {v : Value}

theorem Readable.rename_eq (hv : v.Readable) (r : Renaming) : v.rename r = v := by
  induction v with
  | pair head tail ihhead ihtail => rw [rename, ihhead hv.1, ihtail hv.2.1]
  | closure => exact absurd hv id
  | _ => rfl

theorem Readable.knownIn (hv : v.Readable) (σ : Store) : v.KnownIn σ := by
  induction v with
  | pair _ _ ihhead ihtail => exact ⟨ihhead hv.1, ihtail hv.2.1⟩
  | closure => exact absurd hv id
  | _ => trivial

theorem KnownIn.part {part : Value} (hv : v.KnownIn σ) (h : part.PartOf v) : part.KnownIn σ :=
  h.inherits hv (fun hpair => hpair.1) fun hpair => hpair.2

end Value

/-- Only ids that have been given out come up. -/
def selfContained : Contract where
  Holds σ := σ.SelfContained
  Values σ v := v.KnownIn σ
  Code σ ρ e := ρ < σ.scopes.size ∧ e.KnownIn σ
  Allows _ := True
  values_later hv h := hv.later h
  code_later he h := ⟨Nat.lt_of_lt_of_le he.1 h.size_le, he.2.later h⟩
  binds hσ := hσ.values
  newClosureId hσ := hσ.newClosureId
  bind hσ _ hv ρ x := hσ.bind ρ x hv
  enter {σ} hσ _ _ _ _ scope hf bs hbs :=
    ⟨hσ.enter hf.2.1 hbs, by simp, hf.2.2.later (.enter σ scope bs)⟩
  number _ _ := trivial
  symbol _ _ := trivial
  nil _ := trivial
  constant he _ := he.2
  quoted he _ hv := he.2.part (.tail (quotedPart_partOf hv) _)
  branch he _ hc hv := ⟨he.1, he.2.part (.tail (expressions_partOf hc hv) _)⟩
  closure {σ ρ e l} he hl _ := by
    obtain ⟨tail, hin⟩ := hl.body_partOf
    have hbody : l.body.KnownIn σ := he.2.part (.trans (.head .self _) hin)
    exact ⟨Nat.lt_succ_self _, he.1, hbody.later (.newClosureId σ)⟩
  head he _ := ⟨he.1, he.2.part (.head .self _)⟩
  argument he _ hv := ⟨he.1, he.2.part (.tail (Value.partOf_of_mem_unchain hv) _)⟩
  allows _ := trivial
  proper _ := .inr fun _ => trivial

def sessionSelfContained : SessionContract where
  given _ := selfContained
  new := Store.SelfContained.empty.newGlobal
  code {_ σ e} hread he hσ :=
    ⟨Nat.lt_of_lt_of_le Session.root_lt_size hσ.size_le, (hread e he).knownIn σ⟩
  holds_more hσ _ := hσ
  values_more hv _ := hv
  allows_more _ _ := trivial

theorem beside_evalAll {r : Renaming} {es : List Value} (hes : ∀ e ∈ es, e.Readable)
    (limit : Nat) (ρ : ScopeId) :
    pairing.Beside r Same (evalAll .empty limit ρ es) (evalAll .empty limit (r.scope ρ) es) := by
  have hext : Embedding.empty.RenamedBy r := nofun
  have hall : ∀ last : Value,
      pairing.Beside r Same (es.foldlM (fun _ e => eval .empty limit ρ e) last)
        (es.foldlM (fun _ e => eval .empty limit (r.scope ρ) e) (last.rename r)) := by
    induction es with
    | nil => exact fun last => Pairing.beside_pure (P := pairing) rfl
    | cons e es ih =>
      intro last
      rw [List.foldlM_cons, List.foldlM_cons]
      have hfirst := (beside_eval_apply hext limit).1 ρ e
      rw [(hes e List.mem_cons_self).rename_eq r] at hfirst
      refine hfirst.bind fun r₁ v v' hr hv => ?_
      cases hr
      cases hv
      exact ih (fun e' he' => hes e' (List.mem_cons_of_mem _ he')) v
  exact hall .nil

namespace Call

/-- A call in a renamed scope of a renamed store comes to the same under these ids. -/
theorem perform_takes {r : Renaming} {σ σ' : Store} (hσ : σ.Renames r σ') (c : Call) (limit : Nat)
    (ρ : ScopeId) :
    Option.Rel r.Takes (c.perform limit ρ σ) (c.perform limit (r.scope ρ) σ') := by
  cases hread : c.read with
  | error e =>
    rw [perform_of_read_error hread, perform_of_read_error hread]
    exact .some ⟨rfl, hσ⟩
  | ok es =>
    rw [perform_of_read hread, perform_of_read hread]
    have hall := takes_of_beside (beside_evalAll (readable_of_read hread) limit ρ) hσ
    generalize evalAll .empty limit ρ es σ = o, evalAll .empty limit (r.scope ρ) es σ' = o' at hall
    cases hall with
    | none => exact .none
    | @some o o' h =>
      refine .some ⟨?_, h.store⟩
      dsimp only
      rw [h.result]
      cases o.1 <;> rfl

end Call

namespace SessionLog

/-- What the calls have come to as text. -/
def texts (log : SessionLog) : List (Except Error String) :=
  log.map fun entry => entry.2.map Value.text

/-- The same calls with results under other ids. -/
def rename (r : Renaming) (log : SessionLog) : SessionLog :=
  log.map fun entry => (entry.1, entry.2.map (.rename r))

theorem calls_rename (r : Renaming) (log : SessionLog) : (log.rename r).calls = log.calls := by
  simp [calls, rename]

theorem texts_rename (r : Renaming) (log : SessionLog) : (log.rename r).texts = log.texts := by
  rw [texts, rename, List.map_map]
  refine List.map_congr_left fun entry _ => ?_
  cases h : entry.2 with
  | error e => simp [h, Except.map]
  | ok v => simp [h, Except.map, Value.text_rename]

end SessionLog

end ScopedLisp
