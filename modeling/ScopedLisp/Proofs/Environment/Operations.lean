import ScopedLisp.Proofs.Environment.History
import ScopedLisp.Proofs.Evaluation.Run
import ScopedLisp.Proofs.Store.WayOut

namespace ScopedLisp

/-- A handle is named by the number of handles that there were before it. -/
abbrev Handle := Nat

inductive EnvironmentOperation
  | new
  | global
  | child (h : Handle)
  | withParent (h : Option Handle)
  | clone (h : Handle)
  | set (h : Handle) (name : String) (v : Value)
  | defineNative (h : Handle) (name : String) (p : Procedure)

/-- The handle and the name that an operation sets a value under. -/
def EnvironmentOperation.written? : EnvironmentOperation → Option (Handle × String)
  | set h x _ => some (h, x)
  | defineNative h x _ => some (h, x)
  | _ => none

/-- What operations on environments have led to: the store, the scope behind every handle and what
was set so far. -/
structure Environments where
  store : Store
  handles : List ScopeId
  history : History

namespace Environments

def start : Environments := ⟨Store.empty, [], []⟩

def addScope (E : Environments) (parent : Option ScopeId) : Environments :=
  let (ρ, σ) := E.store.newScope parent
  { E with store := σ, handles := E.handles ++ [ρ] }

def addGlobal (E : Environments) : Environments :=
  let (ρ, σ) := E.store.newGlobal
  let writes : History :=
    Arithmetic.all.map fun op => ⟨ρ, op.symbol, .native op.symbol (.arithmetic op)⟩
  ⟨σ, E.handles ++ [ρ], writes.reverse ++ E.history⟩

def share (E : Environments) (ρ : ScopeId) : Environments :=
  { E with handles := E.handles ++ [ρ] }

def write (E : Environments) (ρ : ScopeId) (x : String) (v : Value) : Environments :=
  { E with store := E.store.bind ρ x v, history := ⟨ρ, x, v⟩ :: E.history }

/-- One operation; none on a handle that there is not. -/
def perform (E : Environments) : EnvironmentOperation → Option Environments
  | .new => some (E.addScope none)
  | .global => some E.addGlobal
  | .child h => E.handles[h]?.map fun ρ => E.addScope (some ρ)
  | .withParent none => some (E.addScope none)
  | .withParent (some h) => E.handles[h]?.map fun ρ => E.addScope (some ρ)
  | .clone h => E.handles[h]?.map E.share
  | .set h x v => E.handles[h]?.map fun ρ => E.write ρ x v
  | .defineNative h x p => E.handles[h]?.map fun ρ => E.write ρ x (.native x p)

def run (E : Environments) (ops : List EnvironmentOperation) : Option Environments :=
  ops.foldlM perform E

variable {E E' : Environments} {op : EnvironmentOperation} {ops : List EnvironmentOperation}

/-- All that an operation can do. -/
theorem perform_cases (h : E.perform op = some E') :
    (∃ parent, (∀ ρ ∈ parent, ρ ∈ E.handles) ∧ E' = E.addScope parent) ∨ E' = E.addGlobal ∨
    (∃ ρ ∈ E.handles, E' = E.share ρ) ∨
    ∃ h ρ x v, op.written? = some (h, x) ∧ E.handles[h]? = some ρ ∧ E' = E.write ρ x v := by
  have inside {k : Handle} {ρ : ScopeId} (hk : E.handles[k]? = some ρ) :
      ∀ p ∈ some ρ, p ∈ E.handles := by
    rintro p ⟨⟩
    exact List.mem_of_getElem? hk
  cases op with
  | new => cases h; exact .inl ⟨none, by simp, rfl⟩
  | global => cases h; exact .inr (.inl rfl)
  | child k =>
    obtain ⟨ρ, hk, rfl⟩ := Option.map_eq_some_iff.1 h
    exact .inl ⟨some ρ, inside hk, rfl⟩
  | withParent outer =>
    cases outer with
    | none => cases h; exact .inl ⟨none, by simp, rfl⟩
    | some k =>
      obtain ⟨ρ, hk, rfl⟩ := Option.map_eq_some_iff.1 h
      exact .inl ⟨some ρ, inside hk, rfl⟩
  | clone k =>
    obtain ⟨ρ, hk, rfl⟩ := Option.map_eq_some_iff.1 h
    exact .inr (.inr (.inl ⟨ρ, List.mem_of_getElem? hk, rfl⟩))
  | set k x v =>
    obtain ⟨ρ, hk, rfl⟩ := Option.map_eq_some_iff.1 h
    exact .inr (.inr (.inr ⟨k, ρ, x, v, rfl, hk, rfl⟩))
  | defineNative k x p =>
    obtain ⟨ρ, hk, rfl⟩ := Option.map_eq_some_iff.1 h
    exact .inr (.inr (.inr ⟨k, ρ, x, _, rfl, hk, rfl⟩))

theorem run_cons_eq_some_iff :
    E.run (op :: ops) = some E' ↔ ∃ E₁, E.perform op = some E₁ ∧ E₁.run ops = some E' := by
  rw [run, List.foldlM_cons, Option.bind_eq_bind, Option.bind_eq_some_iff]
  rfl

theorem perform_leadsTo (h : E.perform op = some E') :
    E.store.LeadsTo E'.store ∧ E.handles <+: E'.handles := by
  obtain ⟨parent, -, rfl⟩ | rfl | ⟨ρ, -, rfl⟩ | ⟨k, ρ, x, v, -, -, rfl⟩ := perform_cases h
  · exact ⟨.newScope E.store parent, List.prefix_append ..⟩
  · exact ⟨.newGlobal E.store, List.prefix_append ..⟩
  · exact ⟨.refl E.store, List.prefix_append ..⟩
  · exact ⟨.bind E.store ρ x v, List.prefix_refl _⟩

/-- Only in the scope that it writes, and only under the name that it writes, an operation changes
what a scope binds that there was before. -/
theorem written_of_local?_ne (h : E.perform op = some E') {i : ScopeId} {x : String}
    (hi : i < E.store.scopes.size) (hne : E'.store.local? i x ≠ E.store.local? i x) :
    ∃ k, op.written? = some (k, x) ∧ E.handles[k]? = some i := by
  obtain ⟨parent, -, rfl⟩ | rfl | ⟨ρ, -, rfl⟩ | ⟨k, ρ, y, v, hop, hk, rfl⟩ := perform_cases h
  · exact absurd (Store.local?_newScope E.store parent i x) hne
  · exact absurd ((Store.Keeps.newGlobal E.store).local? hi x) hne
  · exact absurd rfl hne
  · have hwritten : i = ρ ∧ x = y ∧ ρ < E.store.scopes.size := by
      refine Classical.byContradiction fun hother => hne ?_
      rw [Environments.write, Store.local?_bind, if_neg hother]
    obtain ⟨rfl, rfl, -⟩ := hwritten
    exact ⟨k, hop, hk⟩

theorem run_leadsTo (h : E.run ops = some E') :
    E.store.LeadsTo E'.store ∧ E.handles <+: E'.handles := by
  induction ops generalizing E with
  | nil => cases h; exact ⟨.refl _, List.prefix_refl _⟩
  | cons op ops ih =>
    obtain ⟨E₁, hfirst, hrest⟩ := run_cons_eq_some_iff.1 h
    obtain ⟨hstore₁, hhandles₁⟩ := perform_leadsTo hfirst
    obtain ⟨hstore, hhandles⟩ := ih hrest
    exact ⟨hstore₁.trans hstore, hhandles₁.trans hhandles⟩

/-- What holds of environments whatever was done with them. -/
structure Sound (E : Environments) : Prop where
  handles : ∀ ρ ∈ E.handles, ρ < E.store.scopes.size
  parents : E.store.ParentsOlder
  records : E.store.Records E.history

theorem sound_start : start.Sound where
  handles := by simp [start]
  parents := by
    intro i p hp
    simp [start, Store.parent?, Store.empty] at hp
  records := by
    intro i x v
    simp [start, Store.local?, Store.empty, History.not_lastSet_nil]

namespace Sound

variable (hE : E.Sound)

include hE

theorem addScope {parent : Option ScopeId} (hparent : ∀ ρ ∈ parent, ρ ∈ E.handles) :
    (E.addScope parent).Sound where
  handles := by
    intro ρ hρ
    rcases List.mem_append.1 hρ with hρ | hρ
    · exact Nat.lt_of_lt_of_le (hE.handles ρ hρ) (Store.LeadsTo.newScope E.store parent).size_le
    · rw [List.mem_singleton.1 hρ]
      simp [Environments.addScope, Store.newScope]
  parents := hE.parents.newScope fun p hp => hE.handles p (hparent p hp)
  records := hE.records.newScope parent

theorem addGlobal : E.addGlobal.Sound where
  handles := by
    intro ρ hρ
    rcases List.mem_append.1 hρ with hρ | hρ
    · exact Nat.lt_of_lt_of_le (hE.handles ρ hρ) (Store.LeadsTo.newGlobal E.store).size_le
    · rw [List.mem_singleton.1 hρ]
      simp [Environments.addGlobal, Store.newGlobal, Store.newScope]
  parents := hE.parents.newGlobal
  records := by
    have hnew : (E.store.newScope none).1 < (E.store.newScope none).2.scopes.size := by
      simp [Store.newScope]
    have hall := (hE.records.newScope none).bindAll hnew
      (Arithmetic.all.map fun op => (op.symbol, .native op.symbol (.arithmetic op)))
    rw [List.map_map] at hall
    exact hall

theorem share {ρ : ScopeId} (hρ : ρ ∈ E.handles) : (E.share ρ).Sound where
  handles := by
    intro i hi
    rcases List.mem_append.1 hi with hi | hi
    · exact hE.handles i hi
    · exact List.mem_singleton.1 hi ▸ hE.handles ρ hρ
  parents := hE.parents
  records := hE.records

theorem write {ρ : ScopeId} (hρ : ρ ∈ E.handles) (x : String) (v : Value) :
    (E.write ρ x v).Sound where
  handles i hi := by
    rw [Environments.write, Store.size_bind]
    exact hE.handles i hi
  parents := hE.parents.bind ρ x v
  records := hE.records.bind (hE.handles ρ hρ) x v

theorem perform (h : E.perform op = some E') : E'.Sound := by
  obtain ⟨parent, hparent, rfl⟩ | rfl | ⟨ρ, hρ, rfl⟩ | ⟨k, ρ, x, v, -, hk, rfl⟩ := perform_cases h
  · exact hE.addScope hparent
  · exact hE.addGlobal
  · exact hE.share hρ
  · exact hE.write (List.mem_of_getElem? hk) x v

theorem run (h : E.run ops = some E') : E'.Sound := by
  induction ops generalizing E with
  | nil => cases h; exact hE
  | cons op ops ih =>
    obtain ⟨E₁, hfirst, hrest⟩ := run_cons_eq_some_iff.1 h
    exact ih (hE.perform hfirst) hrest

variable {ρ : ScopeId} {way : List ScopeId} {x : String} {v : Value}

theorem get?_eq_some_iff (hway : E.store.WayOut ρ way) :
    E.store.get? ρ x = some v ↔
      ∃ (nearer : List ScopeId) (i : ScopeId) (farther : List ScopeId),
        way = nearer ++ i :: farther ∧ (∀ j ∈ nearer, ¬E.history.WasSet j x) ∧
          E.history.LastSet i x v := by
  rw [hE.parents.get?_eq_findSome? hway, List.findSome?_eq_some_iff]
  simp only [hE.records.not_wasSet_iff, hE.records _ _ _]
  constructor
  · rintro ⟨nearer, i, farther, heq, hi, hnearer⟩
    exact ⟨nearer, i, farther, heq, hnearer, hi⟩
  · rintro ⟨nearer, i, farther, heq, hnearer, hi⟩
    exact ⟨nearer, i, farther, heq, hi, hnearer⟩

theorem get?_eq_none_iff (hway : E.store.WayOut ρ way) :
    E.store.get? ρ x = none ↔ ∀ i ∈ way, ¬E.history.WasSet i x := by
  rw [hE.parents.get?_eq_findSome? hway, List.findSome?_eq_none_iff]
  exact forall₂_congr fun i _ => hE.records.not_wasSet_iff.symm

theorem exists?_iff (hway : E.store.WayOut ρ way) :
    E.store.exists? ρ x = true ↔ ∃ i ∈ way, E.history.WasSet i x := by
  rw [Store.exists?, Option.isSome_iff_ne_none, ne_eq, hE.get?_eq_none_iff hway]
  simp

theorem mem_localNames_iff : x ∈ E.store.localNames ρ ↔ E.history.WasSet ρ x := by
  rw [Store.mem_localNames_iff, hE.records.wasSet_iff]

/-- An operation changes what a name means in a scope only if it writes the name into a scope on
the way out. -/
theorem written_of_get?_ne (h : E.perform op = some E') (hρ : ρ < E.store.scopes.size)
    (hway : E.store.WayOut ρ way) (hne : E'.store.get? ρ x ≠ E.store.get? ρ x) :
    ∃ k, ∃ scope ∈ way, op.written? = some (k, x) ∧ E.handles[k]? = some scope := by
  have hway' := hE.parents.wayOut_later (perform_leadsTo h).1 hρ hway
  have hchanged : ∃ i ∈ way, E'.store.local? i x ≠ E.store.local? i x := by
    refine Classical.byContradiction fun hsame => hne ?_
    refine hE.parents.get?_congr (hE.perform h).parents hway hway' fun i hi => ?_
    exact Classical.byContradiction fun hi' => hsame ⟨i, hi, hi'⟩
  obtain ⟨i, hi, hne⟩ := hchanged
  have hlt := Nat.lt_of_le_of_lt (hE.parents.le_of_mem_wayOut hway i hi) hρ
  obtain ⟨k, hop, hk⟩ := written_of_local?_ne h hlt hne
  exact ⟨k, i, hi, hop, hk⟩

end Sound

theorem lookup_eq_ok_iff {σ : Store} {ρ : ScopeId} {x : String} {v : Value} :
    EvalM.lookup ρ x σ = some (.ok v, σ) ↔ σ.get? ρ x = some v := by
  rw [EvalM.lookup_apply, EvalM.lookupResult]
  cases σ.get? ρ x <;> simp

theorem lookup_eq_undefined_iff {σ : Store} {ρ : ScopeId} {x : String} :
    EvalM.lookup ρ x σ = some (.error (.undefinedVariable x), σ) ↔ σ.get? ρ x = none := by
  rw [EvalM.lookup_apply, EvalM.lookupResult]
  cases σ.get? ρ x <;> simp

/-- Whatever is done with environments, the parents of a scope stay what they are and lead out of
it, and what a name means there is told by the history: what was set last in the nearest scope in
which the name was ever set. -/
theorem environments_follow_history {ops : List EnvironmentOperation} {E : Environments}
    (hrun : start.run ops = some E) :
    (∀ ρ ∈ E.handles, ∃ way, E.store.WayOut ρ way ∧ way.Nodup ∧ E.store.depth ρ = way.length ∧
      (∀ x v, EvalM.lookup ρ x E.store = some (.ok v, E.store) ↔
        ∃ (nearer : List ScopeId) (i : ScopeId) (farther : List ScopeId),
          way = nearer ++ i :: farther ∧ (∀ j ∈ nearer, ¬E.history.WasSet j x) ∧
            E.history.LastSet i x v) ∧
      (∀ x, EvalM.lookup ρ x E.store = some (.error (.undefinedVariable x), E.store) ↔
        ∀ i ∈ way, ¬E.history.WasSet i x) ∧
      (∀ x, E.store.exists? ρ x = true ↔ ∃ i ∈ way, E.history.WasSet i x) ∧
      (E.store.localNames ρ).Pairwise (· < ·) ∧
      ∀ x, x ∈ E.store.localNames ρ ↔ E.history.WasSet ρ x) ∧
    (∀ more E', E.run more = some E' → E.handles <+: E'.handles ∧
      ∀ i < E.store.scopes.size, E'.store.parent? i = E.store.parent? i) ∧
    ∀ op E', E.perform op = some E' → ∀ ρ ∈ E.handles, ∀ x,
      (EvalM.lookup ρ x E'.store).map Prod.fst ≠ (EvalM.lookup ρ x E.store).map Prod.fst →
        ∃ k way, ∃ scope ∈ way, op.written? = some (k, x) ∧ E.handles[k]? = some scope ∧
          E.store.WayOut ρ way := by
  have hE : E.Sound := sound_start.run hrun
  refine ⟨fun ρ _ => ⟨E.store.chain ρ, ?_⟩, ?_, ?_⟩
  · have hway := hE.parents.wayOut_chain ρ
    refine ⟨hway, hE.parents.nodup_wayOut hway, rfl, fun x v => ?_, fun x => ?_,
      fun x => hE.exists?_iff hway, E.store.localNames_increasing ρ, fun x => hE.mem_localNames_iff⟩
    · rw [lookup_eq_ok_iff, hE.get?_eq_some_iff hway]
    · rw [lookup_eq_undefined_iff, hE.get?_eq_none_iff hway]
  · intro more E' hmore
    obtain ⟨hstore, hhandles⟩ := run_leadsTo hmore
    exact ⟨hhandles, fun i hi => hstore.parent? hi⟩
  · intro op E' hop ρ hρ x hne
    have hway := hE.parents.wayOut_chain ρ
    have hget : E'.store.get? ρ x ≠ E.store.get? ρ x := by
      intro heq
      simp [EvalM.lookup_apply, EvalM.lookupResult, heq] at hne
    obtain ⟨k, scope, hscope, hwritten, hk⟩ :=
      hE.written_of_get?_ne hop (hE.handles ρ hρ) hway hget
    exact ⟨k, _, scope, hscope, hwritten, hk, hway⟩

/-- A name is set again through a second handle, after a child was made that sets another one. -/
def twoHandles : List EnvironmentOperation :=
  [.new, .set 0 "x" .nil, .child 0, .set 1 "y" .nil, .clone 0, .set 2 "x" (.boolean true)]

theorem later_set_is_seen_inside : ∃ E, start.run twoHandles = some E ∧
    EvalM.lookup 1 "x" E.store = some (.ok (.boolean true), E.store) ∧
    EvalM.lookup 0 "y" E.store = some (.error (.undefinedVariable "y"), E.store) := by
  have hrun : start.run twoHandles = some
      { store := ((((Store.empty.newScope none).2.bind 0 "x" .nil).newScope (some 0)).2.bind
          1 "y" .nil).bind 0 "x" (.boolean true)
        handles := [0, 1, 0]
        history := [⟨0, "x", .boolean true⟩, ⟨1, "y", .nil⟩, ⟨0, "x", .nil⟩] } := rfl
  refine ⟨_, hrun, ?_, ?_⟩
  · obtain ⟨way, hway, -, -, hget, -⟩ := (environments_follow_history hrun).1 1 (by simp)
    have hout : way = [1, 0] := hway.unique (.inside rfl (.outermost rfl))
    subst hout
    exact (hget "x" _).2 ⟨[1], 0, [], rfl, by simp, [], _, rfl, by simp⟩
  · obtain ⟨way, hway, -, -, -, hundefined, -⟩ := (environments_follow_history hrun).1 0 (by simp)
    have hout : way = [0] := hway.unique (.outermost rfl)
    subst hout
    exact (hundefined "y").2 (by simp)

end Environments

end ScopedLisp
