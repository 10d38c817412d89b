import ScopedLisp.Proofs.Evaluation.Isolation
import ScopedLisp.Proofs.Evaluation.Limit
import ScopedLisp.Proofs.Substitution.Substitute

namespace ScopedLisp

open EvalM

/-- The expressions evaluate one after the other, each once and in the store that the one before it
has left. -/
inductive EvaluateInTurn (ext : Embedding) (ρ : ScopeId) :
    List Value → Store → List Value → Store → Prop
  | nil (σ : Store) : EvaluateInTurn ext ρ [] σ [] σ
  | cons {e v : Value} {es vs : List Value} {σ σ₁ σ' : Store}
      (h : Evaluates ext ρ e σ (.ok v) σ₁) (hrest : EvaluateInTurn ext ρ es σ₁ vs σ') :
      EvaluateInTurn ext ρ (e :: es) σ (v :: vs) σ'

/-- At a sufficient limit the application of `f` to `vs` ends with the result `r` and leaves the
store `σ'`. -/
def AppliesTo (ext : Embedding) (f : Value) (vs : List Value) (σ : Store)
    (r : Except EvalError Value) (σ' : Store) : Prop :=
  ∃ limit, apply ext limit f vs σ = some (r, σ')

/-- The error of an application whose arguments do not end in nil. -/
def improperArguments (tail : Value) : EvalError :=
  .typeMismatch "apply" "proper argument list" tail.kind

namespace EvalM

theorem Refines.mapM {evaluate evaluate' : Value → EvalM Value}
    (h : ∀ e, Refines (evaluate e) (evaluate' e)) (es : List Value) :
    Refines (es.mapM evaluate) (es.mapM evaluate') := by
  induction es with
  | nil => exact .refl _
  | cons e es ih =>
    rw [List.mapM_cons, List.mapM_cons]
    exact (h e).bind fun v => ih.bind fun vs => .refl _

/-- The elements of a chain are evaluated as those of a list, before its end is looked at. -/
theorem elements_chain (evaluate : Value → EvalM Value) (items : List Value) {tail : Value}
    (htail : tail.kind ≠ .pair) :
    elements evaluate (.chain items tail) [] = (do
      let vs ← items.mapM evaluate
      if tail = .nil then return vs else throw (improperArguments tail)) := by
  induction items with
  | nil =>
    rw [List.mapM_nil, pure_bind]
    cases tail with
    | pair => exact absurd rfl htail
    | _ => rfl
  | cons e items ih =>
    rw [Value.chain_cons, elements_pair, ih, List.mapM_cons, bind_assoc]
    refine congrArg (evaluate e >>= ·) (funext fun v => ?_)
    rw [bind_assoc, bind_assoc]
    refine congrArg (items.mapM evaluate >>= ·) (funext fun vs => ?_)
    rw [pure_bind]
    split <;> rfl

/-- The first that fails decides; nothing is evaluated behind it. -/
theorem mapM_cons_eq_some_iff {evaluate : Value → EvalM Value} {e : Value} {es : List Value}
    {σ σ' : Store} {r : Except EvalError (List Value)} :
    (e :: es).mapM evaluate σ = some (r, σ') ↔
      (∃ err, evaluate e σ = some (.error err, σ') ∧ r = .error err) ∨
      ∃ v σ₁, evaluate e σ = some (.ok v, σ₁) ∧
        ((∃ err, es.mapM evaluate σ₁ = some (.error err, σ') ∧ r = .error err) ∨
          ∃ vs, es.mapM evaluate σ₁ = some (.ok vs, σ') ∧ r = .ok (v :: vs)) := by
  have hrest (v : Value) (σ₁ : Store) : (do
      let vs ← es.mapM evaluate
      return v :: vs : EvalM (List Value)) σ₁ = some (r, σ') ↔
        (∃ err, es.mapM evaluate σ₁ = some (.error err, σ') ∧ r = .error err) ∨
          ∃ vs, es.mapM evaluate σ₁ = some (.ok vs, σ') ∧ r = .ok (v :: vs) := by
    rw [bind_eq_some_iff]
    refine or_congr_right ⟨fun h => ?_, fun h => ?_⟩
    · obtain ⟨vs, σ₂, hvs, hr⟩ := h
      cases hr
      exact ⟨vs, hvs, rfl⟩
    · obtain ⟨vs, hvs, rfl⟩ := h
      exact ⟨vs, σ', hvs, rfl⟩
  rw [List.mapM_cons, bind_eq_some_iff]
  simp only [hrest]

end EvalM

variable {ext : Embedding} {ρ : ScopeId} {head tail f : Value} {items es vs : List Value}
  {σ σ' : Store}

theorem apply_of_le {limit limit' : Nat} (h : limit ≤ limit') (f : Value) (vs : List Value) :
    Refines (apply ext limit f vs) (apply ext limit' f vs) := by
  induction h with
  | refl => exact .refl _
  | @step limit' _ ih => exact ih.trans ((eval_apply_refines ext limit').2 f vs)

theorem mapM_of_le {limit limit' : Nat} (h : limit ≤ limit') (es : List Value) :
    Refines (es.mapM (eval ext limit ρ)) (es.mapM (eval ext limit' ρ)) :=
  .mapM (eval_of_le h ρ) es

theorem evaluateInTurn_iff : EvaluateInTurn ext ρ es σ vs σ' ↔
    ∃ limit, es.mapM (eval ext limit ρ) σ = some (.ok vs, σ') := by
  constructor
  · intro h
    induction h with
    | nil σ => exact ⟨0, rfl⟩
    | cons h _ ih =>
      obtain ⟨limit, hfirst⟩ := h
      obtain ⟨limit', hrest⟩ := ih
      exact ⟨max limit limit', mapM_cons_eq_some_iff.2 (.inr ⟨_, _,
        eval_of_le (Nat.le_max_left ..) ρ _ hfirst,
        .inr ⟨_, mapM_of_le (Nat.le_max_right ..) _ hrest, rfl⟩⟩)⟩
  · intro h
    obtain ⟨limit, h⟩ := h
    induction es generalizing σ vs with
    | nil =>
      cases h
      exact .nil _
    | cons e es ih =>
      rcases mapM_cons_eq_some_iff.1 h with
        ⟨_, -, hr⟩ | ⟨v, σ₁, hfirst, ⟨_, -, hr⟩ | ⟨vs, hrest, hr⟩⟩
      · cases hr
      · cases hr
      · cases hr
        exact .cons ⟨limit, hfirst⟩ (ih hrest)

/-- Some expression fails with `e`, and those before it evaluate in turn. Nothing is said of those
behind it. -/
def FailsInTurn (ext : Embedding) (ρ : ScopeId) (es : List Value) (σ : Store) (e : EvalError)
    (σ' : Store) : Prop :=
  ∃ before failing after vs σ₁, es = before ++ failing :: after ∧
    EvaluateInTurn ext ρ before σ vs σ₁ ∧ Evaluates ext ρ failing σ₁ (.error e) σ'

theorem failsInTurn_iff {e : EvalError} : FailsInTurn ext ρ es σ e σ' ↔
    ∃ limit, es.mapM (eval ext limit ρ) σ = some (.error e, σ') := by
  constructor
  · intro h
    obtain ⟨before, failing, after, vs, σ₁, rfl, hbefore, limit, hfailing⟩ := h
    obtain ⟨limit', hbefore⟩ := evaluateInTurn_iff.1 hbefore
    refine ⟨max limit limit', ?_⟩
    rw [List.mapM_append, bind_apply, mapM_of_le (Nat.le_max_right ..) _ hbefore]
    dsimp only
    rw [List.mapM_cons, bind_assoc, bind_apply, eval_of_le (Nat.le_max_left ..) ρ _ hfailing]
  · intro h
    obtain ⟨limit, h⟩ := h
    induction es generalizing σ with
    | nil => cases h
    | cons first es ih =>
      rcases mapM_cons_eq_some_iff.1 h with
        ⟨_, hfirst, hr⟩ | ⟨v, σ₁, hfirst, ⟨_, hrest, hr⟩ | ⟨vs, -, hr⟩⟩
      · cases hr
        exact ⟨[], first, es, [], σ, rfl, .nil σ, limit, hfirst⟩
      · cases hr
        obtain ⟨before, failing, after, vs, σ₂, rfl, hbefore, hfailing⟩ := ih hrest
        exact ⟨first :: before, failing, after, v :: vs, σ₂, rfl,
          .cons ⟨limit, hfirst⟩ hbefore, hfailing⟩
      · cases hr

theorem eval_chain (limit : Nat) (hhead : SpecialForm.ofHead? head = none)
    (htail : tail.kind ≠ .pair) :
    eval ext (limit + 1) ρ (.pair head (.chain items tail)) = (do
      let f ← eval ext limit ρ head
      let vs ← items.mapM (eval ext limit ρ)
      if tail = .nil then apply ext limit f vs else throw (improperArguments tail)) := by
  rw [eval_application ext limit ρ hhead, elements_chain _ items htail]
  refine congrArg (eval ext limit ρ head >>= ·) (funext fun f => ?_)
  rw [bind_assoc]
  refine congrArg (items.mapM (eval ext limit ρ) >>= ·) (funext fun vs => ?_)
  split <;> rfl

/-- The head is evaluated as if it were the first of the elements. -/
theorem eval_chain_eq_mapM (limit : Nat) (hhead : SpecialForm.ofHead? head = none)
    (htail : tail.kind ≠ .pair) :
    eval ext (limit + 1) ρ (.pair head (.chain items tail)) = (do
      let fs ← (head :: items).mapM (eval ext limit ρ)
      if tail = .nil then apply ext limit (fs.headD .nil) fs.tail
      else throw (improperArguments tail)) := by
  rw [eval_chain limit hhead htail, List.mapM_cons, bind_assoc]
  refine congrArg (eval ext limit ρ head >>= ·) (funext fun f => ?_)
  rw [bind_assoc]
  exact congrArg (items.mapM (eval ext limit ρ) >>= ·) (funext fun vs => (pure_bind ..).symm)

theorem EvaluateInTurn.length_eq (h : EvaluateInTurn ext ρ es σ vs σ') : vs.length = es.length := by
  induction h with
  | nil => rfl
  | cons _ _ ih => rw [List.length_cons, List.length_cons, ih]

/-- The first failure decides, else the end of the chain, else the application. -/
theorem evaluates_chain_iff (hhead : SpecialForm.ofHead? head = none) (htail : tail.kind ≠ .pair)
    {r : Except EvalError Value} :
    Evaluates ext ρ (.pair head (.chain items tail)) σ r σ' ↔
      (∃ e, FailsInTurn ext ρ (head :: items) σ e σ' ∧ r = .error e) ∨
      ∃ f vs σ₁, EvaluateInTurn ext ρ (head :: items) σ (f :: vs) σ₁ ∧
        (tail ≠ .nil → r = .error (improperArguments tail) ∧ σ' = σ₁) ∧
        (tail = .nil → AppliesTo ext f vs σ₁ r σ') := by
  constructor
  · intro h
    obtain ⟨limit, h⟩ := h
    cases limit with
    | zero => cases h
    | succ limit =>
      rw [eval_chain_eq_mapM limit hhead htail] at h
      rcases bind_eq_some_iff.1 h with ⟨e, hfails, hr⟩ | ⟨fs, σ₁, hvalues, h⟩
      · exact .inl ⟨e, failsInTurn_iff.2 ⟨limit, hfails⟩, hr⟩
      · have hturn := evaluateInTurn_iff.2 ⟨limit, hvalues⟩
        obtain ⟨f, vs, rfl⟩ : ∃ f vs, fs = f :: vs := by
          cases hturn with
          | cons => exact ⟨_, _, rfl⟩
        refine .inr ⟨f, vs, σ₁, hturn, fun hne => ?_, fun hnil => ?_⟩
        · rw [if_neg hne] at h
          cases h
          exact ⟨rfl, rfl⟩
        · rw [if_pos hnil] at h
          exact ⟨limit, h⟩
  · intro h
    rcases h with ⟨e, hfails, rfl⟩ | ⟨f, vs, σ₁, hturn, himproper, happlies⟩
    · obtain ⟨limit, hfails⟩ := failsInTurn_iff.1 hfails
      refine ⟨limit + 1, ?_⟩
      rw [eval_chain_eq_mapM limit hhead htail, bind_apply, hfails]
    · obtain ⟨limit, hvalues⟩ := evaluateInTurn_iff.1 hturn
      by_cases hnil : tail = .nil
      · obtain ⟨limit', happlies⟩ := happlies hnil
        refine ⟨max limit limit' + 1, ?_⟩
        rw [eval_chain_eq_mapM _ hhead htail, bind_apply,
          mapM_of_le (Nat.le_max_left ..) _ hvalues]
        dsimp only
        rw [if_pos hnil]
        exact apply_of_le (Nat.le_max_right ..) f vs happlies
      · obtain ⟨rfl, rfl⟩ := himproper hnil
        refine ⟨limit + 1, ?_⟩
        rw [eval_chain_eq_mapM limit hhead htail, bind_apply, hvalues]
        dsimp only
        rw [if_neg hnil]
        rfl

theorem appliesTo_not_callable (hclosure : f.kind ≠ .closure) (hnative : f.kind ≠ .native)
    (vs : List Value) (σ : Store) : AppliesTo ext f vs σ (.error (.notCallable f.text)) σ := by
  refine ⟨1, ?_⟩
  rw [apply_not_callable ext 0 hclosure hnative]
  rfl

/-- An application evaluates its head and then its arguments from left to right, each once and in
the store that the one before it has left, and nests its parts one deeper than it nests itself. The
first of them that fails gives the outcome, in the store that it leaves. If none does, a chain that
does not end in nil is an error that names the kind of its end; else the outcome is that of applying
the head's value to the others. So that a value cannot be called, or not with so many arguments,
comes out only when all arguments have been evaluated, and in the store that they have left. -/
theorem application_goes_left_to_right (ext : Embedding) (ρ : ScopeId) (head : Value)
    (items : List Value) (tail : Value) (hhead : ∀ form : SpecialForm, head ≠ .symbol form.name)
    (htail : tail.kind ≠ .pair) :
    (∀ limit, eval ext (limit + 1) ρ (.pair head (.chain items tail)) = (do
      let f ← eval ext limit ρ head
      let vs ← items.mapM (eval ext limit ρ)
      if tail = .nil then apply ext limit f vs else throw (improperArguments tail))) ∧
    (∀ σ r σ', Evaluates ext ρ (.pair head (.chain items tail)) σ r σ' ↔
      (∃ e, FailsInTurn ext ρ (head :: items) σ e σ' ∧ r = .error e) ∨
      ∃ f vs σ₁, EvaluateInTurn ext ρ (head :: items) σ (f :: vs) σ₁ ∧
        (tail ≠ .nil → r = .error (improperArguments tail) ∧ σ' = σ₁) ∧
        (tail = .nil → AppliesTo ext f vs σ₁ r σ')) ∧
    ∀ σ f vs σ₁, tail = .nil → EvaluateInTurn ext ρ (head :: items) σ (f :: vs) σ₁ →
      (f.kind ≠ .closure → f.kind ≠ .native →
        Evaluates ext ρ (.pair head (.chain items tail)) σ (.error (.notCallable f.text)) σ₁) ∧
      ∀ id name params body scope, f = .closure id name params body scope →
        items.length ≠ params.length →
        Evaluates ext ρ (.pair head (.chain items tail)) σ
          (.error (.arityMismatch (name.getD "lambda") (.exactly params.length) items.length))
          σ₁ := by
  have happlication : SpecialForm.ofHead? head = none := by
    refine Option.eq_none_iff_forall_ne_some.2 fun form hform => ?_
    exact hhead form (SpecialForm.ofHead?_eq_some_iff.1 hform)
  refine ⟨fun limit => eval_chain limit happlication htail,
    fun σ r σ' => evaluates_chain_iff happlication htail, fun σ f vs σ₁ hnil hturn => ?_⟩
  have hcalled {r : Except EvalError Value} (h : AppliesTo ext f vs σ₁ r σ₁) :
      Evaluates ext ρ (.pair head (.chain items tail)) σ r σ₁ :=
    (evaluates_chain_iff happlication htail).2
      (.inr ⟨f, vs, σ₁, hturn, fun hne => absurd hnil hne, fun _ => h⟩)
  refine ⟨fun hclosure hnative => hcalled (appliesTo_not_callable hclosure hnative vs σ₁), ?_⟩
  intro id name params body scope hf hn
  subst hf
  have hlength : vs.length = items.length := Nat.succ.inj hturn.length_eq
  rw [← hlength] at hn ⊢
  exact hcalled ⟨1, apply_closure_arity ext 0 id name body scope hn σ₁⟩

/-- `(defun f () nil)` -/
private def definesF : Value := .list [.symbol "defun", .symbol "f", .nil, .nil]

/-- `(f)` -/
private def callsF : Value := .list [.symbol "f"]

private def withF : Store :=
  Store.empty.newGlobal.2.newClosureId.2.bind 0 "f" (.closure 0 (some "f") [] .nil 0)

/-- An argument calls what the one before it has defined, and only then the head turns out not to be
callable, or the chain not to end in nil; a name that is missing comes out before either, and a
wrong number of arguments after them. -/
theorem argument_defines_what_the_next_one_calls :
    ∃ σ, EvaluateInTurn .empty 0 [.nil, definesF, callsF] Store.empty.newGlobal.2
        [.nil, .symbol "f", .nil] σ ∧
      Evaluates .empty 0 (.list [.nil, definesF, callsF]) Store.empty.newGlobal.2
        (.error (.notCallable "NIL")) σ ∧
      Evaluates .empty 0 (.chain [.nil, definesF, callsF] (.boolean true))
        Store.empty.newGlobal.2 (.error (improperArguments (.boolean true))) σ ∧
      Evaluates .empty 0 (.chain [.nil, definesF, .symbol "g", callsF] (.boolean true))
        Store.empty.newGlobal.2 (.error (.undefinedVariable "g")) withF ∧
      Evaluates .empty 0 (.list [.symbol "f", definesF]) withF
        (.error (.arityMismatch "f" (.exactly 0) 1)) (withF.newClosureId.2.bind 0 "f"
          (.closure 1 (some "f") [] .nil 0)) := by
  have hnil : Evaluates .empty 0 .nil Store.empty.newGlobal.2 (.ok .nil) Store.empty.newGlobal.2 :=
    ⟨1, rfl⟩
  have hdefine : Evaluates .empty 0 definesF Store.empty.newGlobal.2 (.ok (.symbol "f")) withF :=
    ⟨1, rfl⟩
  have hf : Evaluates .empty 0 (.symbol "f") withF
      (.ok (.closure 0 (some "f") [] .nil 0)) withF := by
    have hbound : withF.get? 0 "f" = some (.closure 0 (some "f") [] .nil 0) := by decide +kernel
    exact ⟨1, by rw [eval, lookup_apply, lookupResult, hbound]⟩
  have hg : Evaluates .empty 0 (.symbol "g") withF (.error (.undefinedVariable "g")) withF := by
    have hunbound : withF.get? 0 "g" = none := by decide +kernel
    exact ⟨1, by rw [eval, lookup_apply, lookupResult, hunbound]⟩
  have hname (form : SpecialForm) : Value.symbol "f" ≠ .symbol form.name := by
    cases form <;> decide
  have hofF (items : List Value) :=
    application_goes_left_to_right .empty 0 (.symbol "f") items .nil hname (by decide)
  have hcall : Evaluates .empty 0 callsF withF (.ok .nil) (withF.enter 0 []) :=
    ((hofF []).2.1 _ _ _).2 (.inr ⟨_, [], withF, .cons hf (.nil withF),
      fun hne => absurd rfl hne, fun _ => ⟨2, rfl⟩⟩)
  have hturn : EvaluateInTurn .empty 0 [.nil, definesF, callsF] Store.empty.newGlobal.2
      [.nil, .symbol "f", .nil] (withF.enter 0 []) :=
    .cons hnil (.cons hdefine (.cons hcall (.nil _)))
  have hnoName (form : SpecialForm) : Value.nil ≠ .symbol form.name := by
    cases form <;> decide
  have hproper :=
    application_goes_left_to_right .empty 0 .nil [definesF, callsF] .nil hnoName (by decide)
  have himproper (items : List Value) :=
    application_goes_left_to_right .empty 0 .nil items (.boolean true) hnoName (by decide)
  refine ⟨withF.enter 0 [], hturn, ?_, ?_, ?_, ?_⟩
  · exact (hproper.2.2 _ _ _ _ rfl hturn).1 (by decide) (by decide)
  · exact ((himproper [definesF, callsF]).2.1 _ _ _).2
      (.inr ⟨_, _, _, hturn, fun _ => ⟨rfl, rfl⟩, fun hnil => absurd hnil (by decide)⟩)
  · refine ((himproper [definesF, .symbol "g", callsF]).2.1 _ _ _).2 (.inl ⟨_, ?_, rfl⟩)
    exact ⟨[.nil, definesF], .symbol "g", [callsF], _, withF, rfl,
      .cons hnil (.cons hdefine (.nil withF)), hg⟩
  · exact ((hofF [definesF]).2.2 _ _ _ _ rfl (.cons hf (.cons ⟨1, rfl⟩ (.nil _)))).2
      _ _ _ _ _ rfl (by decide)

/-- The call of `f` with the values `vs`, all quoted, so that none of them is taken for code. -/
def Value.quotedCall (f : Value) (vs : List Value) : Value := .list ((f :: vs).map .quotation)

theorem eval_quotation (limit : Nat) (v : Value) :
    eval ext (limit + 1) ρ v.quotation = pure v := rfl

theorem mapM_quotation (limit : Nat) (vs : List Value) :
    (vs.map .quotation).mapM (eval ext (limit + 1) ρ) = pure vs := by
  induction vs with
  | nil => rfl
  | cons v vs ih => rw [List.map_cons, List.mapM_cons, ih, eval_quotation, pure_bind, pure_bind]

theorem eval_quotedCall (limit : Nat) (f : Value) (vs : List Value) :
    eval ext (limit + 2) ρ (.quotedCall f vs) = apply ext (limit + 1) f vs := by
  have hcall : eval ext (limit + 2) ρ (.pair f.quotation (.chain (vs.map .quotation) .nil)) = _ :=
    eval_chain (limit + 1) rfl nofun
  rw [eval_quotation, mapM_quotation, pure_bind, pure_bind, if_pos rfl] at hcall
  exact hcall

/-- What is quoted means the same everywhere. -/
theorem eval_quotedCall_congr (limit : Nat) (ρ ρ' : ScopeId) (f : Value) (vs : List Value) :
    eval ext limit ρ (.quotedCall f vs) = eval ext limit ρ' (.quotedCall f vs) := by
  match limit with
  | 0 | 1 => rfl
  | limit + 2 => rw [eval_quotedCall, eval_quotedCall]

/-- A call of a value with values, all quoted, has in every scope the outcome that the application
of the one value to the others has, and leaves the same store; it nests one deeper. So the scope has
no say in it, and scopes that are there already stay as they were. -/
theorem quoted_call_is_application (ext : Embedding) (f : Value) (vs : List Value) :
    (∀ limit ρ, eval ext (limit + 2) ρ (.quotedCall f vs) = apply ext (limit + 1) f vs) ∧
    (∀ ρ σ r σ', Evaluates ext ρ (.quotedCall f vs) σ r σ' ↔ AppliesTo ext f vs σ r σ') ∧
    (∀ limit ρ ρ', eval ext limit ρ (.quotedCall f vs) = eval ext limit ρ' (.quotedCall f vs)) ∧
    ∀ ρ σ r σ', Evaluates ext ρ (.quotedCall f vs) σ r σ' →
      ∀ i < σ.scopes.size, σ'.scopes[i]? = σ.scopes[i]? := by
  have happlies (ρ σ r σ') :
      Evaluates ext ρ (.quotedCall f vs) σ r σ' ↔ AppliesTo ext f vs σ r σ' := by
    constructor
    · intro h
      obtain ⟨limit, h⟩ := h
      have hmore := eval_of_le (Nat.le_add_right limit 2) ρ _ h
      rw [eval_quotedCall] at hmore
      exact ⟨limit + 1, hmore⟩
    · intro h
      obtain ⟨limit, h⟩ := h
      refine ⟨limit + 2, ?_⟩
      rw [eval_quotedCall]
      exact apply_of_le (Nat.le_succ limit) f vs h
  refine ⟨fun limit ρ => eval_quotedCall limit f vs, happlies,
    fun limit ρ ρ' => eval_quotedCall_congr limit ρ ρ' f vs, fun ρ σ r σ' h => ?_⟩
  obtain ⟨limit, happly⟩ := (happlies ρ σ r σ').1 h
  exact (eval_grows_apply_keeps ext limit).2 f vs σ happly fun _ _ => rfl

/-- `(lambda (x) (defun g () x))` in the scope 0 -/
private def definesG : Value :=
  .closure 0 none ["x"] (.list [.symbol "defun", .symbol "g", .nil, .symbol "x"]) 0

/-- A closure that defines in its frame is called with what would be a form of the wrong shape, and
the name of a special form is called in vain. -/
theorem quoted_call_takes_code_for_data :
    (∃ σ, Evaluates .empty 0 (.quotedCall definesG [.pair (.symbol "if") (.boolean true)])
        Store.empty.newGlobal.2 (.ok (.symbol "g")) σ ∧
      σ.scopes[0]? = Store.empty.newGlobal.2.scopes[0]?) ∧
    Evaluates .empty 0 (.quotedCall (.symbol "quote") [.nil]) Store.empty.newGlobal.2
      (.error (.notCallable "quote")) Store.empty.newGlobal.2 := by
  obtain ⟨σ, hdefines⟩ : ∃ σ, AppliesTo .empty definesG [.pair (.symbol "if") (.boolean true)]
      Store.empty.newGlobal.2 (.ok (.symbol "g")) σ := ⟨_, 2, rfl⟩
  have hcall := quoted_call_is_application .empty definesG [.pair (.symbol "if") (.boolean true)]
  have hrun := (hcall.2.1 0 _ _ _).2 hdefines
  refine ⟨⟨σ, hrun, hcall.2.2.2 0 _ _ _ hrun 0 (by decide)⟩, ?_⟩
  exact ((quoted_call_is_application .empty (.symbol "quote") [.nil]).2.1 0 _ _ _).2
    (appliesTo_not_callable (f := .symbol "quote") nofun nofun [.nil] _)

end ScopedLisp
