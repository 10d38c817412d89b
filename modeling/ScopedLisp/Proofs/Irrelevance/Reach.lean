import ScopedLisp.Procedure.Embedding
import ScopedLisp.Proofs.Store.Growth
import ScopedLisp.Proofs.Value.Part

namespace ScopedLisp

namespace Value

/-- Every closure in the value, or in the body of one, has a body and a scope as `K` says. -/
def ClosuresAre (K : Value → ScopeId → Prop) : Value → Prop
  | pair head tail => head.ClosuresAre K ∧ tail.ClosuresAre K
  | closure _ _ _ body scope => K body scope ∧ body.ClosuresAre K
  | _ => True

variable {K L : Value → ScopeId → Prop}

theorem ClosuresAre.mono {v : Value} (hv : v.ClosuresAre K)
    (h : ∀ body scope, K body scope → L body scope) : v.ClosuresAre L := by
  induction v with
  | pair head tail ihhead ihtail => exact ⟨ihhead hv.1, ihtail hv.2⟩
  | closure id name params body scope ih => exact ⟨h body scope hv.1, ih hv.2⟩
  | _ => trivial

theorem ClosuresAre.part {part v : Value} (hv : v.ClosuresAre K) (h : part.PartOf v) :
    part.ClosuresAre K :=
  h.inherits hv (fun hpair => hpair.1) fun hpair => hpair.2

theorem closuresAre_list {items : List Value} :
    (list items).ClosuresAre K ↔ ∀ v ∈ items, v.ClosuresAre K := by
  induction items with
  | nil => simp [ClosuresAre]
  | cons v items ih => simp [ClosuresAre, ih]

/-- The symbol `n` is in the value, or in the body of a closure in it. -/
def Says (n : String) : Value → Prop
  | symbol x => x = n
  | pair head tail => head.Says n ∨ tail.Says n
  | closure _ _ _ body _ => body.Says n
  | _ => False

def decideSays (n : String) : (v : Value) → Decidable (v.Says n)
  | symbol x => inferInstanceAs (Decidable (x = n))
  | pair head tail =>
    have := decideSays n head
    have := decideSays n tail
    inferInstanceAs (Decidable (head.Says n ∨ tail.Says n))
  | closure _ _ _ body _ => decideSays n body
  | number _ | string _ | boolean _ | nil | native .. => inferInstanceAs (Decidable False)

instance (n : String) (v : Value) : Decidable (v.Says n) := decideSays n v

end Value

namespace Store

mutual

/-- The scopes that can be got at from the expression `e` in the scope `ρ`. -/
inductive ReachesScope (σ : Store) (ρ : ScopeId) (e : Value) : ScopeId → Prop
  | own : ReachesScope σ ρ e ρ
  | parent {i p : ScopeId} (h : ReachesScope σ ρ e i) (hp : σ.parent? i = some p) :
      ReachesScope σ ρ e p
  | closure {id : ClosureId} {name : Option String} {params : List String} {body : Value}
      {i : ScopeId} (h : ReachesValue σ ρ e (.closure id name params body i)) :
      ReachesScope σ ρ e i

inductive ReachesValue (σ : Store) (ρ : ScopeId) (e : Value) : Value → Prop
  | expression : ReachesValue σ ρ e e
  | bound {i : ScopeId} {x : String} {v : Value} (h : ReachesScope σ ρ e i)
      (hv : σ.local? i x = some v) : ReachesValue σ ρ e v
  | head {head tail : Value} (h : ReachesValue σ ρ e (.pair head tail)) : ReachesValue σ ρ e head
  | tail {head tail : Value} (h : ReachesValue σ ρ e (.pair head tail)) : ReachesValue σ ρ e tail
  | body {id : ClosureId} {name : Option String} {params : List String} {body : Value}
      {i : ScopeId} (h : ReachesValue σ ρ e (.closure id name params body i)) :
      ReachesValue σ ρ e body

end

variable {σ : Store} {ρ : ScopeId} {e : Value} {n : String}

theorem ReachesValue.part {part v : Value} (hv : σ.ReachesValue ρ e v) (h : part.PartOf v) :
    σ.ReachesValue ρ e part :=
  h.inherits hv .head .tail

/-- If a symbol cannot be got at, then it is in no closure that can be got at. -/
theorem ReachesValue.closuresAre (hn : ¬σ.ReachesValue ρ e (.symbol n)) {v : Value}
    (hv : σ.ReachesValue ρ e v) :
    v.ClosuresAre fun body scope => ¬(Value.symbol n).PartOf body ∧ σ.ReachesScope ρ e scope := by
  induction v with
  | pair head tail ihhead ihtail => exact ⟨ihhead hv.head, ihtail hv.tail⟩
  | closure id name params body scope ih =>
    exact ⟨⟨fun h => hn (hv.body.part h), .closure hv⟩, ih hv.body⟩
  | _ => trivial

/-- Where nothing that is bound says a name, nor the expression, the name cannot be got at. -/
theorem not_reachesValue_symbol (hσ : σ.Binds (¬Value.Says n ·)) (he : ¬e.Says n) :
    ¬σ.ReachesValue ρ e (.symbol n) := by
  have hsays {v : Value} (h : σ.ReachesValue ρ e v) : ¬v.Says n := by
    induction h using ReachesValue.rec (motive_1 := fun _ _ => True) with
    | own | parent | closure => trivial
    | expression => exact he
    | bound _ hv => exact hσ hv
    | head _ ih => exact fun h => ih (.inl h)
    | tail _ ih => exact fun h => ih (.inr h)
    | body _ ih => exact ih
  exact fun h => hsays h rfl

end Store

/-- The closures that the computation hands on are such as it was given, whatever it was given. -/
inductive NativeStep.HandsOn (K : Value → ScopeId → Prop) : NativeStep → Prop
  | done {outcome : Except EvalError Value} (h : ∀ v, outcome = .ok v → v.ClosuresAre K) :
      HandsOn K (.done outcome)
  | apply {f : Value} {args : List Value} {resume : Except EvalError Value → NativeStep}
      (hf : f.ClosuresAre K) (hargs : ∀ v ∈ args, v.ClosuresAre K)
      (h : ∀ outcome, (∀ v, outcome = .ok v → v.ClosuresAre K) → HandsOn K (resume outcome)) :
      HandsOn K (.apply f args resume)

namespace Embedding

/-- The foreign procedures have no closures but from their arguments and from applications, and so
have no other way to a scope. -/
def HandsOn (ext : Embedding) : Prop :=
  ∀ K ⦃name f⦄, ext name = some f → ∀ args : List Value, (∀ v ∈ args, v.ClosuresAre K) →
    (f args).HandsOn K

variable {K : Value → ScopeId → Prop} {args : List Value}

theorem handsOn_error (e : EvalError) : (NativeStep.done (.error e)).HandsOn K :=
  .done fun _ h => nomatch h

theorem handsOn_unary {name : String} {f : Value → Except EvalError Value}
    (h : ∀ v w, v.ClosuresAre K → f v = .ok w → w.ClosuresAre K)
    (hargs : ∀ v ∈ args, v.ClosuresAre K) : (unary name f args).HandsOn K := by
  match args, hargs with
  | [v], hargs => exact .done fun w => h v w (hargs v List.mem_cons_self)
  | [], _ | _ :: _ :: _, _ => exact handsOn_error _

theorem handsOn_binary {name : String} {f : Value → Value → NativeStep}
    (h : ∀ v w, v.ClosuresAre K → w.ClosuresAre K → (f v w).HandsOn K)
    (hargs : ∀ v ∈ args, v.ClosuresAre K) : (binary name f args).HandsOn K := by
  match args, hargs with
  | [v, w], hargs => exact h v w (hargs v (by simp)) (hargs w (by simp))
  | [], _ | [_], _ | _ :: _ :: _ :: _, _ => exact handsOn_error _

theorem handsOn_applyToList {f vs : Value} (hf : f.ClosuresAre K) (hvs : vs.ClosuresAre K) :
    (applyToList f vs).HandsOn K := by
  rw [applyToList]
  cases hitems : vs.items? with
  | none => exact handsOn_error _
  | some items =>
    rw [Value.eq_list_of_items? hitems, Value.closuresAre_list] at hvs
    exact .apply hf hvs fun outcome => .done

theorem closuresAre_of_less {v w u : Value} (h : less v w = .ok u) : u.ClosuresAre K := by
  rw [less] at h
  cases hv : less.number v with
  | error e => rw [hv] at h; cases h
  | ok x =>
    cases hw : less.number w with
    | error e => rw [hv, hw] at h; cases h
    | ok y => rw [hv, hw] at h; cases h; trivial

theorem handsOn_listTools : listTools.HandsOn := by
  intro K name f h args hargs
  unfold listTools at h
  split at h <;> cases h
  · exact .done fun v hv => by cases hv; exact Value.closuresAre_list.2 hargs
  · exact handsOn_binary (fun v w hv hw => .done fun u hu => by cases hu; exact ⟨hv, hw⟩) hargs
  · refine handsOn_unary (fun v w hv hw => ?_) hargs
    cases v <;> cases hw
    exact hv.1
  · refine handsOn_unary (fun v w hv hw => ?_) hargs
    cases v <;> cases hw
    exact hv.2
  · exact handsOn_binary (fun v w _ _ => .done fun u hu => by cases hu; trivial) hargs
  · exact handsOn_binary (fun v w _ _ => .done fun u hu => closuresAre_of_less hu) hargs
  · exact handsOn_binary (fun _ _ => handsOn_applyToList) hargs

end Embedding

end ScopedLisp
