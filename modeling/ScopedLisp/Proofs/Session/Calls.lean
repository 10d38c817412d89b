import ScopedLisp.Proofs.Evaluation.Isolation
import ScopedLisp.Proofs.Evaluation.Limit
import ScopedLisp.Proofs.Printing.Stability
import ScopedLisp.Session

namespace ScopedLisp

/-- What texts are read as: data without procedures and without the false boolean, of which every
chain ends in nil. -/
def Value.Readable : Value → Prop
  | pair head tail => Readable head ∧ Readable tail ∧ tail.unchain.2 = nil
  | boolean b => b = true
  | closure .. | native .. => False
  | _ => True

namespace Value

theorem readable_list {items : List Value} (h : ∀ v ∈ items, v.Readable) :
    (list items).Readable := by
  induction items with
  | nil => trivial
  | cons v items ih =>
    exact ⟨h v List.mem_cons_self, ih fun w hw => h w (List.mem_cons_of_mem _ hw),
      congrArg Prod.snd (unchain_list items)⟩

theorem readable_of_made {v : Value} (h : v.Made IsRead) : v.Readable := by
  induction h with
  | atom h => cases h <;> first | exact trivial | exact rfl
  | list _ ih => exact readable_list ih

end Value

theorem made_of_readValues {done vs : List Value} {s : Scanner} (h : s.readValues done = .ok vs)
    (hdone : ∀ v ∈ done, v.Made Value.IsRead) : ∀ v ∈ vs, v.Made Value.IsRead := by
  fun_induction Scanner.readValues done s with
  | case1 done s hend =>
    cases h
    simpa using hdone
  | case2 => cases h
  | case3 done s hend v s' hread hlt ih =>
    refine ih h fun w hw => ?_
    rcases List.mem_cons.1 hw with rfl | hw
    · exact made_of_readValue hread Frames.read_nil
    · exact hdone w hw

theorem evalAll_singleton (ext : Embedding) (limit : Nat) (ρ : ScopeId) (v : Value) :
    evalAll ext limit ρ [v] = eval ext limit ρ v := by
  simp [evalAll]

section

variable {ext : Embedding} {limit : Nat} {ρ : ScopeId} {source : String}

theorem runSource_of_read {vs : List Value} (h : readAll source = .ok vs) :
    runSource ext limit ρ source = SessionM.ofEval (evalAll ext limit ρ vs) := by
  rw [runSource, h]
  rfl

/-- A text that cannot be read comes to the same error whatever is bound and however deeply
evaluations may nest. -/
theorem runSource_of_read_error {e : ReadError} (h : readAll source = .error e) (σ : Store) :
    runSource ext limit ρ source σ = some (.error (.read e), σ) := by
  rw [runSource, h]
  rfl

end

inductive Call
  | evaluate (source : String)
  | run (source : String)

namespace Call

/-- What a call reads before it evaluates anything. -/
def read : Call → Except ReadError (List Value)
  | evaluate source => ([·]) <$> readOne source
  | run source => readAll source

def expressions (c : Call) : List Value :=
  match c.read with
  | .ok es => es
  | .error _ => []

/-- A call on the evaluator whose root is the scope `ρ`. -/
def perform (limit : Nat) (ρ : ScopeId) : Call → SessionM Value
  | evaluate source => evalSource .empty limit ρ source
  | run source => runSource .empty limit ρ source

theorem expressions_of_read {c : Call} {es : List Value} (h : c.read = .ok es) :
    c.expressions = es := by
  rw [expressions, h]

theorem read_evaluate_eq_ok_iff {source : String} {es : List Value} :
    (evaluate source).read = .ok es ↔ ∃ v, readOne source = .ok v ∧ es = [v] := by
  rw [read]
  cases readOne source with
  | error e => simp
  | ok v => simp [eq_comm]

theorem read_evaluate_eq_error_iff {source : String} {e : ReadError} :
    (evaluate source).read = .error e ↔ readOne source = .error e := by
  rw [read]
  cases readOne source <;> simp

theorem readable_of_read {c : Call} {es : List Value} (h : c.read = .ok es) :
    ∀ e ∈ es, e.Readable := by
  intro e he
  apply Value.readable_of_made
  cases c with
  | evaluate source =>
    obtain ⟨v, hone, rfl⟩ := read_evaluate_eq_ok_iff.1 h
    rw [List.mem_singleton.1 he]
    exact made_of_readOne hone
  | run source =>
    rw [read, readAll_eq] at h
    exact made_of_readValues h (List.forall_mem_nil _) e he

theorem readable_of_mem_expressions {c : Call} : ∀ e ∈ c.expressions, e.Readable := by
  intro e he
  unfold expressions at he
  split at he
  · next es h => exact readable_of_read h e he
  · cases he

variable {c : Call} {limit limit' : Nat} {ρ : ScopeId} {σ σ' : Store} {result : Except Error Value}

theorem perform_of_read_error {e : ReadError} (h : c.read = .error e) (limit : Nat) (ρ : ScopeId)
    (σ : Store) : c.perform limit ρ σ = some (.error (.read e), σ) := by
  cases c with
  | evaluate source =>
    have hone : readOne source = .error e := read_evaluate_eq_error_iff.1 h
    rw [perform, evalSource, hone]
    rfl
  | run source =>
    have hall : readAll source = .error e := h
    exact runSource_of_read_error hall σ

theorem ofEval_apply (m : EvalM Value) (σ : Store) :
    SessionM.ofEval m σ = (m σ).map fun o => (o.1.mapError .eval, o.2) := by
  change Option.bind (m σ) _ = _
  cases m σ <;> rfl

/-- A call evaluates in turn what it has read. -/
theorem perform_of_read {es : List Value} (h : c.read = .ok es) (limit : Nat) (ρ : ScopeId)
    (σ : Store) :
    c.perform limit ρ σ =
      (evalAll .empty limit ρ es σ).map fun o => (o.1.mapError .eval, o.2) := by
  cases c with
  | evaluate source =>
    obtain ⟨v, hone, rfl⟩ := read_evaluate_eq_ok_iff.1 h
    rw [perform, evalSource, hone, evalAll_singleton, ← ofEval_apply]
    rfl
  | run source =>
    have hall : readAll source = .ok es := h
    rw [perform, runSource_of_read hall, ofEval_apply]

/-- A call that ends could not read its text, or has evaluated what it has read. -/
theorem perform_eq_some_iff :
    c.perform limit ρ σ = some (result, σ') ↔
      (∃ e, c.read = .error e ∧ result = .error (.read e) ∧ σ' = σ) ∨
        ∃ es r, c.read = .ok es ∧ evalAll .empty limit ρ es σ = some (r, σ') ∧
          result = r.mapError .eval := by
  cases hread : c.read with
  | error e =>
    rw [perform_of_read_error hread]
    simp [eq_comm]
  | ok es =>
    rw [perform_of_read hread]
    simp [eq_comm]

end Call

variable {limit limit' : Nat} {ρ : ScopeId}

theorem preserves_evalAll {I : Store → Prop} {ext : Embedding}
    (h : ∀ e, EvalM.Preserves I (eval ext limit ρ e)) (es : List Value) :
    EvalM.Preserves I (evalAll ext limit ρ es) := by
  unfold evalAll
  generalize Value.nil = last
  induction es generalizing last with
  | nil => exact EvalM.preserves_pure last
  | cons e es ih =>
    rw [List.foldlM_cons]
    exact EvalM.preserves_bind (h e) ih

theorem refines_evalAll (ext : Embedding) (h : limit ≤ limit') (ρ : ScopeId) (es : List Value) :
    EvalM.Refines (evalAll ext limit ρ es) (evalAll ext limit' ρ es) := by
  unfold evalAll
  generalize Value.nil = last
  induction es generalizing last with
  | nil => exact .refl _
  | cons e es ih =>
    rw [List.foldlM_cons, List.foldlM_cons]
    exact EvalM.Refines.bind (eval_of_le h ρ e) ih

namespace Call

variable {c : Call} {σ σ' : Store} {result : Except Error Value}

theorem perform_preserves {I : Store → Prop} (h : ∀ e, EvalM.Preserves I (eval .empty limit ρ e))
    (hrun : c.perform limit ρ σ = some (result, σ')) (hσ : I σ) : I σ' := by
  rcases perform_eq_some_iff.1 hrun with ⟨e, -, -, rfl⟩ | ⟨es, r, -, heval, -⟩
  · exact hσ
  · exact preserves_evalAll h es heval hσ

theorem perform_leadsTo (hrun : c.perform limit ρ σ = some (result, σ')) : σ.LeadsTo σ' := by
  have hlasts := (eval_apply_leadsTo .empty limit σ).1 ρ
  exact perform_preserves hlasts hrun (.refl σ)

/-- A call leaves all scopes as they were but the root of its evaluator. -/
theorem perform_others (hrun : c.perform limit ρ σ = some (result, σ')) {i : ScopeId}
    (hi : i < σ.scopes.size) (hne : i ≠ ρ) : σ'.scopes[i]? = σ.scopes[i]? := by
  have hlasts : ∀ e, EvalM.Preserves (σ.GrowsAt ρ fun _ _ => True) (eval .empty limit ρ e) := by
    intro e
    exact (eval_grows_apply_keeps .empty limit).1 ρ e _ (fun _ _ _ => trivial) σ
  have hgrows := perform_preserves hlasts hrun (.refl σ ρ _)
  exact hgrows.others i hi hne

theorem perform_of_le (h : limit ≤ limit') (hrun : c.perform limit ρ σ = some (result, σ')) :
    c.perform limit' ρ σ = some (result, σ') := by
  rw [perform_eq_some_iff] at hrun ⊢
  rcases hrun with hread | ⟨es, r, hread, heval, hresult⟩
  · exact .inl hread
  · exact .inr ⟨es, r, hread, refines_evalAll .empty h ρ es heval, hresult⟩

theorem perform_unique {result' : Except Error Value} {σ'' : Store}
    (hrun : c.perform limit ρ σ = some (result, σ'))
    (hrun' : c.perform limit' ρ σ = some (result', σ'')) : result = result' ∧ σ' = σ'' := by
  have h := perform_of_le (Nat.le_max_left limit limit') hrun
  rw [perform_of_le (Nat.le_max_right limit limit') hrun'] at h
  cases h
  exact ⟨rfl, rfl⟩

end Call

end ScopedLisp
