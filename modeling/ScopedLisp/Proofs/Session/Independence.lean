import ScopedLisp.Proofs.Session.Renaming

namespace ScopedLisp

open Store

/-- An evaluator among others: its global scope, and what its calls have come to. -/
structure Evaluator where
  root : ScopeId
  log : SessionLog

/-- Evaluators that are made and called in turn, on any store, and the store they have come to. -/
inductive Interleaved : List Evaluator → Store → Prop
  | none (σ : Store) : Interleaved [] σ
  | make {evaluators : List Evaluator} {σ : Store} (h : Interleaved evaluators σ) :
      Interleaved (evaluators ++ [⟨σ.newGlobal.1, []⟩]) σ.newGlobal.2
  | call {before after : List Evaluator} {ρ : ScopeId} {log : SessionLog} {σ σ' : Store}
      {limit : Nat} {c : Call} {result : Except Error Value}
      (h : Interleaved (before ++ ⟨ρ, log⟩ :: after) σ)
      (hrun : c.perform limit ρ σ = some (result, σ')) :
      Interleaved (before ++ ⟨ρ, log ++ [(c, result)]⟩ :: after) σ'

/-- In the store `σ` there is under `r` the store `τ` to which the calls of the evaluator lead in a
session of its own, with none of the other evaluators' roots in it. -/
structure Evaluator.Mirrors (σ : Store) (roots : List ScopeId) (E : Evaluator) (alone : SessionLog)
    (τ : Store) (r : Renaming) : Prop where
  session : Session alone τ
  log : E.log = alone.rename r
  root : r.scope Session.root = E.root
  copied : τ.CopiedBy r σ
  apart : ∀ ρ ∈ roots, ρ ≠ E.root → ∀ i < τ.scopes.size, r.scope i ≠ ρ

namespace Evaluator.Mirrors

variable {σ σ' τ : Store} {roots : List ScopeId} {E : Evaluator} {alone : SessionLog} {r : Renaming}

theorem root_lt_size_alone (h : E.Mirrors σ roots alone τ r) : Session.root < τ.scopes.size :=
  Nat.lt_of_lt_of_le Session.root_lt_size (sessionSelfContained.session h.session).1.size_le

theorem root_lt_size (h : E.Mirrors σ roots alone τ r) : E.root < σ.scopes.size := by
  rw [← h.root]
  exact h.copied.scope_lt h.root_lt_size_alone

/-- What the calls have come to does not change when the ids to come are chosen anew. -/
theorem log_eq (h : E.Mirrors σ roots alone τ r) {r' : Renaming} (hr : r.AgreesOn τ r') :
    E.log = alone.rename r' := by
  obtain ⟨-, -, hvalues, -⟩ := sessionSelfContained.session h.session
  rw [h.log]
  refine List.map_congr_left fun entry hentry => ?_
  obtain ⟨c, result⟩ := entry
  cases result with
  | error e => rfl
  | ok v =>
    have hv : v.rename r' = v.rename r := Value.rename_congr (hvalues c v hentry) hr
    simp [Except.map, hv]

/-- A copy for good, in which calls can go on. -/
theorem exists_renames (h : E.Mirrors σ roots alone τ r) :
    ∃ r', r.AgreesOn τ r' ∧ τ.Renames r' σ ∧ r'.scope Session.root = E.root := by
  obtain ⟨-, hτ, -, -⟩ := sessionSelfContained.session h.session
  obtain ⟨r', hr, hrenames⟩ := h.copied.exists_renames hτ
  exact ⟨r', hr, hrenames, (hr.scope h.root_lt_size_alone).trans h.root⟩

/-- A new evaluator disturbs no other one. -/
theorem make (h : E.Mirrors σ roots alone τ r) :
    E.Mirrors σ.newGlobal.2 (roots ++ [σ.newGlobal.1]) alone τ r where
  session := h.session
  log := h.log
  root := h.root
  copied := h.copied.of_kept (.newGlobal σ) fun i hi =>
    Keeps.newGlobal σ _ (h.copied.scope_lt hi)
  apart ρ hρ hne i hi := by
    rcases List.mem_append.1 hρ with hρ | hρ
    · exact h.apart ρ hρ hne i hi
    · rw [List.mem_singleton.1 hρ]
      exact Nat.ne_of_lt (h.copied.scope_lt hi)

/-- A call of one evaluator disturbs no other one. -/
theorem other (h : E.Mirrors σ roots alone τ r) {ρ : ScopeId} (hρ : ρ ∈ roots) (hne : ρ ≠ E.root)
    {c : Call} {limit : Nat} {result : Except Error Value}
    (hrun : c.perform limit ρ σ = some (result, σ')) : E.Mirrors σ' roots alone τ r where
  session := h.session
  log := h.log
  root := h.root
  copied := h.copied.of_kept (Call.perform_leadsTo hrun) fun i hi =>
    Call.perform_others hrun (h.copied.scope_lt hi) (h.apart ρ hρ hne i hi)
  apart := h.apart

/-- An evaluator's own call is a call in its session. -/
theorem call {ρ : ScopeId} {log : SessionLog} (h : Mirrors σ roots ⟨ρ, log⟩ alone τ r)
    (hroots : ∀ ρ' ∈ roots, ρ' < σ.scopes.size) {c : Call} {limit : Nat}
    {result : Except Error Value} (hrun : c.perform limit ρ σ = some (result, σ')) :
    ∃ alone' τ' r', Mirrors σ' roots ⟨ρ, log ++ [(c, result)]⟩ alone' τ' r' := by
  obtain ⟨r', hr, hrenames, hroot⟩ := h.exists_renames
  have hcall := Call.perform_takes hrenames c limit Session.root
  rw [hroot, hrun] at hcall
  cases hown : c.perform limit Session.root τ with
  | none =>
    rw [hown] at hcall
    cases hcall
  | some o =>
    rw [hown] at hcall
    obtain ⟨result', τ'⟩ := o
    cases hcall with
    | some htakes =>
      obtain ⟨hresult, hstore⟩ := htakes
      refine ⟨alone ++ [(c, result')], τ', r', .call h.session hown, ?_, hroot, hstore.copiedBy, ?_⟩
      · have hlog : log = alone.rename r' := h.log_eq hr
        rw [hlog, show result = result'.map (.rename r') from hresult]
        simp [SessionLog.rename]
      · -- Scopes that the call has made come after all roots there are.
        intro ρ' hρ' hne i _
        by_cases hi : i < τ.scopes.size
        · rw [hr.scope hi]
          exact h.apart ρ' hρ' hne i hi
        · have hnew : r'.scope τ.scopes.size ≤ r'.scope i :=
            r'.scope_strictMono.monotone (Nat.le_of_not_lt hi)
          rw [hrenames.newest] at hnew
          exact Nat.ne_of_gt (Nat.lt_of_lt_of_le (hroots ρ' hρ') hnew)

end Evaluator.Mirrors

/-- The ids that a new evaluator gets on any store. -/
def Renaming.shift (σ : Store) : Renaming where
  scope i := σ.scopes.size + i
  closure i := σ.closures + i
  scope_strictMono := fun _ _ h => Nat.add_lt_add_left h _
  closure_strictMono := fun _ _ h => Nat.add_lt_add_left h _

theorem copiedBy_newGlobal (σ : Store) :
    Store.empty.newGlobal.2.CopiedBy (.shift σ) σ.newGlobal.2 := by
  have hsize : ∀ {i}, i < Store.empty.newGlobal.2.scopes.size → i = Store.empty.newGlobal.1 := by
    intro i hi
    simpa [newGlobal, Store.empty, newScope] using hi
  have hroot : (Renaming.shift σ).scope Store.empty.newGlobal.1 = σ.newGlobal.1 := rfl
  refine ⟨fun hi => ?_, fun hi => absurd hi (Nat.not_lt_zero _), fun {i} hi => ?_, fun hi x => ?_⟩
  · rw [hsize hi, hroot]
    simp [newGlobal, newScope]
  · rw [hsize hi, hroot, parent?_newGlobal, parent?_newGlobal]
    rfl
  · rw [hsize hi, hroot, local?_newGlobal, local?_newGlobal]
    generalize Arithmetic.all = ops
    induction ops with
    | nil => rfl
    | cons op ops ih =>
      rw [List.map_cons, List.lookup_cons]
      split
      · rfl
      · exact ih

theorem Evaluator.mirrors_new {σ : Store} {roots : List ScopeId}
    (hroots : ∀ ρ ∈ roots, ρ < σ.scopes.size) :
    Mirrors σ.newGlobal.2 (roots ++ [σ.newGlobal.1]) ⟨σ.newGlobal.1, []⟩ []
      Store.empty.newGlobal.2 (.shift σ) where
  session := .new
  log := rfl
  root := rfl
  copied := copiedBy_newGlobal σ
  apart ρ hρ hne i _ := by
    rcases List.mem_append.1 hρ with hρ | hρ
    · exact Nat.ne_of_gt (Nat.lt_of_lt_of_le (hroots ρ hρ) (Nat.le_add_right _ i))
    · exact absurd (List.mem_singleton.1 hρ) hne

theorem roots_lt_size {σ : Store} {evaluators : List Evaluator}
    (h : ∀ E ∈ evaluators, ∃ alone τ r, E.Mirrors σ (evaluators.map Evaluator.root) alone τ r) :
    ∀ ρ ∈ evaluators.map Evaluator.root, ρ < σ.scopes.size := by
  intro ρ hρ
  obtain ⟨E, hE, rfl⟩ := List.mem_map.1 hρ
  obtain ⟨_, _, _, hE⟩ := h E hE
  exact hE.root_lt_size

/-- Every evaluator mirrors a session of its own, whatever the others have done. -/
theorem Interleaved.mirrors {evaluators : List Evaluator} {σ : Store}
    (h : Interleaved evaluators σ) :
    (evaluators.map Evaluator.root).Nodup ∧ ∀ E ∈ evaluators, ∃ alone τ r,
      E.Mirrors σ (evaluators.map Evaluator.root) alone τ r := by
  induction h with
  | none σ => exact ⟨List.nodup_nil, nofun⟩
  | @make evaluators σ h ih =>
    obtain ⟨hnodup, hmirrors⟩ := ih
    have hroots := roots_lt_size hmirrors
    rw [List.map_append]
    refine ⟨?_, fun E hE => ?_⟩
    · refine List.nodup_append.2 ⟨hnodup, List.nodup_singleton _, fun ρ hρ ρ' hρ' => ?_⟩
      rw [List.mem_singleton.1 hρ']
      exact Nat.ne_of_lt (hroots ρ hρ)
    · rcases List.mem_append.1 hE with hE | hE
      · obtain ⟨alone, τ, r, hE⟩ := hmirrors E hE
        exact ⟨alone, τ, r, hE.make⟩
      · rw [List.mem_singleton.1 hE]
        exact ⟨_, _, _, Evaluator.mirrors_new hroots⟩
  | @call before after ρ log σ σ' limit c result h hrun ih =>
    obtain ⟨hnodup, hmirrors⟩ := ih
    have hroots : ∀ ρ' ∈ (before ++ ⟨ρ, log⟩ :: after).map Evaluator.root,
        ρ' < σ.scopes.size := roots_lt_size hmirrors
    -- The roots stay the same, so that only the log of the evaluator that is called changes.
    have hsame : (before ++ ⟨ρ, log ++ [(c, result)]⟩ :: after).map Evaluator.root =
        (before ++ ⟨ρ, log⟩ :: after).map Evaluator.root := by simp
    rw [hsame]
    refine ⟨hnodup, fun E hE => ?_⟩
    have hmem : ρ ∈ (before ++ ⟨ρ, log⟩ :: after).map Evaluator.root := by simp
    have hothers : ρ ∉ (before ++ after).map Evaluator.root := by
      rw [List.map_append, List.map_cons, List.nodup_middle, ← List.map_append] at hnodup
      exact (List.nodup_cons.1 hnodup).1
    have hcases : E ∈ before ++ after ∨ E = ⟨ρ, log ++ [(c, result)]⟩ := by
      simp only [List.mem_append, List.mem_cons] at hE ⊢
      tauto
    rcases hcases with hE | rfl
    · have hne : ρ ≠ E.root := fun heq => hothers (heq ▸ List.mem_map_of_mem hE)
      have hE' : E ∈ before ++ ⟨ρ, log⟩ :: after := by
        simp only [List.mem_append, List.mem_cons] at hE ⊢
        tauto
      obtain ⟨alone, τ, r, hE⟩ := hmirrors E hE'
      exact ⟨alone, τ, r, hE.other hmem hne hrun⟩
    · obtain ⟨alone, τ, r, hown⟩ := hmirrors ⟨ρ, log⟩ (by simp)
      exact hown.call hroots hrun

/-- Among other evaluators, every call on an evaluator comes to the same as in a session of its own:
the same error, or the same value up to the ids of scopes and closures and so the same text; and the
root binds the same. This goes on: a next call comes to the same, or does not end in either case. -/
theorem sessions_do_not_interfere {evaluators : List Evaluator} {σ : Store}
    (h : Interleaved evaluators σ) {E : Evaluator} (hE : E ∈ evaluators) :
    (∃ alone τ, Session alone τ ∧ alone.calls = E.log.calls) ∧
    ∀ alone τ, Session alone τ → alone.calls = E.log.calls →
      alone.texts = E.log.texts ∧
      ∃ r : Renaming, E.log = alone.rename r ∧ E.root = r.scope Session.root ∧
        (∀ x, σ.local? E.root x = (τ.local? Session.root x).map (.rename r)) ∧
        ∀ (c : Call) (limit : Nat),
          Option.Rel r.Takes (c.perform limit Session.root τ) (c.perform limit E.root σ) := by
  obtain ⟨alone, τ, r, hmirrors⟩ := h.mirrors.2 E hE
  obtain ⟨r', hr, hrenames, hroot⟩ := hmirrors.exists_renames
  have hlog := hmirrors.log_eq hr
  refine ⟨⟨alone, τ, hmirrors.session, ?_⟩, fun alone' τ' hsession hcalls => ?_⟩
  · rw [hlog, SessionLog.calls_rename]
  · rw [hlog, SessionLog.calls_rename] at hcalls
    obtain ⟨rfl, rfl⟩ := hsession.unique hmirrors.session hcalls
    refine ⟨?_, r', hlog, hroot.symm, fun x => ?_, fun c limit => ?_⟩
    · rw [hlog, SessionLog.texts_rename]
    · rw [← hroot]
      exact hrenames.local? _ x
    · rw [← hroot]
      exact Call.perform_takes hrenames c limit Session.root

/-- The call that needs a definition, on an evaluator that has not seen it. -/
private def undefinedF : SessionLog :=
  [(.evaluate "(f)", .error (.eval (.undefinedVariable "f")))]

/-- What one evaluator defines is not known to the other, which fails as it would alone; and the
first one binds what it would bind alone. -/
theorem function_stays_with_its_evaluator :
    ∃ σ, Interleaved [⟨0, definedF⟩, ⟨1, undefinedF⟩] σ ∧
      (∃ alone τ, Session alone τ ∧ alone.calls = undefinedF.calls ∧
        alone.texts = undefinedF.texts) ∧
      ∃ r : Renaming, definedF = definedF.rename r ∧ 0 = r.scope Session.root ∧
        ∀ x, σ.local? 0 x = (storeWithF.local? Session.root x).map (.rename r) := by
  let two := Store.empty.newGlobal.2.newGlobal.2
  let defined := two.newClosureId.2.bind 0 "f" closureF
  have hmade : Interleaved ([] ++ ⟨0, []⟩ :: [⟨1, []⟩]) two := .make (.make (.none .empty))
  have hdefine : (Call.evaluate "(defun f () f)").perform 2 0 two =
      some (.ok (.symbol "f"), defined) := by
    rw [Call.perform_of_read read_namesItself]
    rfl
  have hdefined : Interleaved ([⟨0, definedF⟩] ++ ⟨1, []⟩ :: []) defined := hmade.call hdefine
  have hfails : (evalAll .empty 3 1 [.list [.symbol "f"]] defined).map Prod.fst =
      some (.error (.undefinedVariable "f")) := by decide +kernel
  obtain ⟨⟨_, σ⟩, hcall, rfl⟩ := Option.map_eq_some_iff.1 hfails
  have hcall : (Call.evaluate "(f)").perform 3 1 defined =
      some (.error (.eval (.undefinedVariable "f")), σ) := by
    rw [Call.perform_of_read read_call, hcall]
    rfl
  have hboth : Interleaved [⟨0, definedF⟩, ⟨1, undefinedF⟩] σ := hdefined.call hcall
  have hfirst := sessions_do_not_interfere hboth (E := ⟨0, definedF⟩) (by simp)
  have hsecond := sessions_do_not_interfere hboth (E := ⟨1, undefinedF⟩) (by simp)
  obtain ⟨⟨alone, τ, halone, hcalls⟩, hsame⟩ := hsecond
  obtain ⟨-, r, hlog, hroot, hbinds, -⟩ := hfirst.2 definedF storeWithF session_definedF rfl
  exact ⟨σ, hboth, ⟨alone, τ, halone, hcalls, (hsame alone τ halone hcalls).1⟩, r, hlog, hroot,
    hbinds⟩

end ScopedLisp
