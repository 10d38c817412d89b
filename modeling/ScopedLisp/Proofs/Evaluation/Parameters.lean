import ScopedLisp.Proofs.Evaluation.Run
import ScopedLisp.Proofs.Relation
import ScopedLisp.Proofs.Store.WayOut

namespace ScopedLisp

theorem lookup_zip_of_not_mem {α : Type} {params : List String} {x : String} (hx : x ∉ params)
    (args : List α) : (params.zip args).reverse.lookup x = none := by
  refine List.lookup_eq_none_iff.2 fun p hp => bne_iff_ne.2 fun heq => ?_
  exact hx (heq ▸ (List.of_mem_zip (List.mem_reverse.1 hp)).1)

/-- Of the arguments for one parameter the last is found. -/
theorem lookup_zip_of_last {α : Type} {params : List String} {args : List α} {i : Nat} {x : String}
    {v : α} (hx : params[i]? = some x) (hv : args[i]? = some v)
    (hlast : ∀ j, i < j → params[j]? ≠ some x) : (params.zip args).reverse.lookup x = some v := by
  induction params generalizing args i with
  | nil => cases hx
  | cons y params ih =>
    match args, hv with
    | a :: args, hv =>
      rw [List.zip_cons_cons, List.reverse_cons, List.lookup_append]
      cases i with
      | zero =>
        obtain rfl : y = x := Option.some.inj hx
        obtain rfl : a = v := Option.some.inj hv
        have hrest : y ∉ params := by
          intro hmem
          obtain ⟨j, hj⟩ := List.mem_iff_getElem?.1 hmem
          exact hlast (j + 1) (Nat.succ_pos j) hj
        rw [lookup_zip_of_not_mem hrest]
        simp
      | succ i =>
        rw [ih hx hv fun j hij => hlast (j + 1) (Nat.succ_lt_succ hij)]
        rfl

namespace Store

variable {σ σ' : Store} {ρ i scope : ScopeId}

theorem chain_eq (σ : Store) (ρ : ScopeId) :
    σ.chain ρ = ρ :: ((σ.parent? ρ).elim [] fun p => if p < ρ then σ.chain p else []) := by
  rw [chain]
  cases σ.parent? ρ with
  | none => rfl
  | some p =>
    dsimp only [Option.elim]
    split <;> rfl

/-- A scope keeps its chain. -/
theorem LeadsTo.chain (h : σ.LeadsTo σ') (hi : i < σ.scopes.size) : σ'.chain i = σ.chain i := by
  induction i using Nat.strongRecOn with
  | _ i ih =>
    rw [chain_eq, chain_eq, h.parent? hi]
    cases σ.parent? i with
    | none => rfl
    | some p =>
      by_cases hp : p < i
      · simp [hp, ih p hp (Nat.lt_trans hp hi)]
      · simp [hp]

theorem chain_enter_frame (hscope : scope < σ.scopes.size) (bs : List (String × Value)) :
    (σ.enter scope bs).chain σ.scopes.size = σ.scopes.size :: σ.chain scope := by
  rw [chain_eq, parent?_enter_frame, ← (LeadsTo.enter σ scope bs).chain hscope]
  simp [hscope]

/-- What a name means is up to the scopes of the chain. -/
theorem get?_eq_of_chain (h : ∀ i ∈ σ.chain ρ, σ'.scopes[i]? = σ.scopes[i]?) (x : String) :
    σ'.get? ρ x = σ.get? ρ x := by
  induction ρ using Nat.strongRecOn with
  | _ ρ ih =>
    have hchain := chain_eq σ ρ
    have hsame := h ρ (hchain ▸ List.mem_cons_self)
    have hlocal : σ'.local? ρ x = σ.local? ρ x := by rw [local?, local?, hsame]
    have hparent : σ'.parent? ρ = σ.parent? ρ := by rw [parent?, parent?, hsame]
    rw [get?_eq, get?_eq, hlocal, hparent]
    cases hp : σ.parent? ρ with
    | none => rfl
    | some p =>
      by_cases hlt : p < ρ
      · have hinner : ∀ i ∈ σ.chain p, σ'.scopes[i]? = σ.scopes[i]? := by
          intro i hi
          refine h i ?_
          rw [hchain, hp]
          simp [hlt, hi]
        simp [hlt, ih p hlt hinner]
      · simp [hlt]

end Store

/-- The store `σ'` is `σ` with one scope more, the frame of a call with these arguments for these
parameters of a closure whose scope is `scope`. -/
structure IsFrame (σ : Store) (scope : ScopeId) (params : List String) (args : List Value)
    (frame : ScopeId) (σ' : Store) : Prop where
  new : σ.scopes.size ≤ frame ∧ frame < σ'.scopes.size
  size : σ'.scopes.size = σ.scopes.size + 1
  closures : σ'.closures = σ.closures
  keeps : σ.Keeps σ'
  parent : σ'.parent? frame = some scope
  names (x : String) : x ∈ σ'.localNames frame ↔ x ∈ params
  /-- A parameter has the argument at the last position at which it stands. -/
  parameter {i : Nat} {x : String} {v : Value} (hx : params[i]? = some x) (hv : args[i]? = some v)
    (hlast : ∀ j, i < j → params[j]? ≠ some x) :
    σ'.local? frame x = some v ∧ σ'.get? frame x = some v
  other {x : String} (hx : x ∉ params) : σ'.get? frame x = σ.get? scope x
  chain : σ'.chain frame = frame :: σ.chain scope
  /-- Scopes that are not on the way from the frame outwards have no say in what a name means. -/
  static {τ : Store} (h : ∀ i ∈ frame :: σ.chain scope, τ.scopes[i]? = σ'.scopes[i]?)
    (x : String) : τ.get? frame x = σ'.get? frame x

open Store in
theorem isFrame_enter {σ : Store} {scope : ScopeId} (hscope : scope < σ.scopes.size)
    {params : List String} {args : List Value} (hn : args.length = params.length) :
    IsFrame σ scope params args σ.scopes.size (σ.enter scope (params.zip args)) where
  new := ⟨Nat.le_refl _, by simp⟩
  size := size_enter ..
  closures := closures_enter ..
  keeps := Keeps.enter σ scope _
  parent := parent?_enter_frame ..
  names x := by
    rw [mem_localNames_iff, local?_enter_frame, ← Option.isSome_iff_exists,
      lookup_zip_isSome_iff hn]
  parameter hx hv hlast := by
    rw [get?_enter_frame hscope, local?_enter_frame, lookup_zip_of_last hx hv hlast]
    exact ⟨rfl, rfl⟩
  other hx := by
    rw [get?_enter_frame hscope, lookup_zip_of_not_mem hx]
    rfl
  chain := chain_enter_frame hscope _
  static h := get?_eq_of_chain (by rwa [chain_enter_frame hscope])

/-- A closure that is called with a wrong number of arguments fails with its name and both numbers,
without evaluating anything, since it fails at every limit, and the store stays as it was. Else its
body is evaluated in a new scope that stands in the scope of the closure, binds just the parameters,
each to the last of its arguments, and leaves every other name what it means in the scope of the
closure at the time of the call. -/
theorem call_binds_exactly_the_parameters (ext : Embedding) {σ : Store} {scope : ScopeId}
    (hscope : scope < σ.scopes.size) (id : ClosureId) (name : Option String)
    (params : List String) (body : Value) (args : List Value) :
    (args.length ≠ params.length → ∀ limit,
      apply ext (limit + 1) (.closure id name params body scope) args σ =
        some (.error (.arityMismatch (name.getD "lambda") (.exactly params.length) args.length),
          σ)) ∧
    (args.length = params.length → ∃ frame σ', IsFrame σ scope params args frame σ' ∧ ∀ limit,
      apply ext (limit + 1) (.closure id name params body scope) args σ =
        eval ext limit frame body σ') := by
  constructor
  · intro hn limit
    exact apply_closure_arity ext limit id name body scope hn σ
  · intro hn
    exact ⟨σ.scopes.size, σ.enter scope (params.zip args), isFrame_enter hscope hn,
      fun limit => apply_closure ext limit id name body scope hn σ⟩

/-- A closure that was made in a new global scope, with a parameter that comes twice and one that
hides the sum. -/
private def hidesSum : Value :=
  .closure 0 (some "h") ["x", "+", "x"] (.list [.symbol "*", .symbol "+", .symbol "x"]) 0

theorem repeated_parameter_has_last_argument :
    (∃ frame σ, apply .empty 4 hidesSum [.number 1, .number 2, .number 3] Store.empty.newGlobal.2 =
        eval .empty 3 frame (.list [.symbol "*", .symbol "+", .symbol "x"]) σ ∧
      σ.localNames 0 = Store.empty.newGlobal.2.localNames 0 ∧
      σ.get? frame "x" = some (.number 3) ∧ σ.get? frame "+" = some (.number 2) ∧
      σ.get? frame "*" = some (.native "*" (.arithmetic .multiply))) ∧
    apply .empty 1 hidesSum [.number 1] Store.empty.newGlobal.2 =
      some (.error (.arityMismatch "h" (.exactly 3) 1), Store.empty.newGlobal.2) := by
  have hscope : 0 < Store.empty.newGlobal.2.scopes.size := by decide
  have hcall (args : List Value) := call_binds_exactly_the_parameters .empty hscope 0 (some "h")
    ["x", "+", "x"] (.list [.symbol "*", .symbol "+", .symbol "x"]) args
  refine ⟨?_, (hcall [.number 1]).1 (by decide) 0⟩
  obtain ⟨frame, σ, hframe, hbody⟩ := (hcall [.number 1, .number 2, .number 3]).2 rfl
  have hglobal : Store.empty.newGlobal.2.get? 0 "*" =
      some (.native "*" (.arithmetic .multiply)) := by decide +kernel
  refine ⟨frame, σ, hbody 3, ?_, ?_, ?_, ?_⟩
  · rw [Store.localNames, Store.localNames, hframe.keeps 0 hscope]
  · refine (hframe.parameter (i := 2) rfl rfl fun j hj => ?_).2
    rw [List.getElem?_eq_none hj]
    nofun
  · refine (hframe.parameter (i := 1) rfl rfl fun j hj => ?_).2
    match j, hj with
    | 2, _ => decide
    | j + 3, _ => simp
  · rw [hframe.other (by decide), hglobal]

end ScopedLisp
