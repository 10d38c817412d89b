import ScopedLisp.Procedure.Arithmetic

namespace ScopedLisp

/-- Of all places at which there is such an error, the first has this one. -/
def FirstOf (P : Nat → EvalError → Prop) (e : EvalError) : Prop :=
  ∃ i, P i e ∧ ∀ j < i, ∀ e', ¬P j e'

theorem firstOf_congr {P Q : Nat → EvalError → Prop} (h : ∀ i e, P i e ↔ Q i e) (e : EvalError) :
    FirstOf P e ↔ FirstOf Q e := by
  simp only [FirstOf, h]

theorem firstOf_of_head {P : Nat → EvalError → Prop} {e : EvalError}
    (hhead : ∀ e', P 0 e' ↔ e' = e) (e' : EvalError) : FirstOf P e' ↔ e' = e := by
  constructor
  · intro h
    obtain ⟨i, hi, hbefore⟩ := h
    cases i with
    | zero => exact (hhead e').1 hi
    | succ i => exact absurd ((hhead e).2 rfl) (hbefore 0 (Nat.zero_lt_succ i) e)
  · intro h
    exact ⟨0, (hhead e').2 h, fun j hj => absurd hj (Nat.not_lt_zero j)⟩

theorem firstOf_of_tail {P : Nat → EvalError → Prop} (hhead : ∀ e', ¬P 0 e') (e : EvalError) :
    FirstOf P e ↔ FirstOf (fun i => P (i + 1)) e := by
  constructor
  · intro h
    obtain ⟨i, hi, hbefore⟩ := h
    cases i with
    | zero => exact absurd hi (hhead e)
    | succ i => exact ⟨i, hi, fun j hj => hbefore (j + 1) (Nat.succ_lt_succ hj)⟩
  · intro h
    obtain ⟨i, hi, hbefore⟩ := h
    refine ⟨i + 1, hi, fun j hj => ?_⟩
    cases j with
    | zero => exact hhead
    | succ j => exact hbefore j (Nat.lt_of_succ_lt_succ hj)

/-- There is an error somewhere if there is a first one. -/
theorem exists_firstOf_iff {P : Nat → EvalError → Prop} :
    (∃ e, FirstOf P e) ↔ ∃ i e, P i e := by
  constructor
  · intro h
    obtain ⟨e, i, hi, -⟩ := h
    exact ⟨i, e, hi⟩
  · intro h
    obtain ⟨i, hi⟩ := h
    induction i using Nat.strongRecOn with
    | _ i ih =>
      obtain ⟨e, he⟩ := hi
      by_cases hbefore : ∃ j < i, ∃ e', P j e'
      · obtain ⟨j, hj, hoffends⟩ := hbefore
        exact ih j hj hoffends
      · exact ⟨e, i, he, fun j hj e' hoffends => hbefore ⟨j, hj, e', hoffends⟩⟩

section Bind

variable {α β : Type} {result : Except EvalError α} {f : α → Except EvalError β}

theorem bind_eq_ok_iff {b : β} : result >>= f = .ok b ↔ ∃ a, result = .ok a ∧ f a = .ok b := by
  cases result with
  | error e =>
    refine ⟨nofun, fun h => ?_⟩
    obtain ⟨a, ha, -⟩ := h
    cases ha
  | ok a =>
    refine ⟨fun h => ⟨a, rfl, h⟩, fun h => ?_⟩
    obtain ⟨a', ha, hb⟩ := h
    cases ha
    exact hb

theorem bind_eq_error_iff {e : EvalError} :
    result >>= f = .error e ↔ result = .error e ∨ ∃ a, result = .ok a ∧ f a = .error e := by
  cases result with
  | error e₀ =>
    constructor
    · intro h
      cases h
      exact .inl rfl
    · rintro (h | ⟨a, ha, -⟩)
      · cases h
        rfl
      · cases ha
  | ok a =>
    refine ⟨fun h => .inr ⟨a, rfl, h⟩, fun h => ?_⟩
    obtain ⟨a', ha, he⟩ := h.resolve_left nofun
    cases ha
    exact he

end Bind

/-- A row of checks fails with the error of the first that fails. -/
theorem mapM_eq_error_iff {α β : Type} {f : α → Except EvalError β} {as : List α}
    {e : EvalError} :
    as.mapM f = .error e ↔ FirstOf (fun i e => ∃ a, as[i]? = some a ∧ f a = .error e) e := by
  induction as with
  | nil =>
    refine ⟨nofun, fun h => ?_⟩
    obtain ⟨i, ⟨a, ha, -⟩, -⟩ := h
    cases ha
  | cons a as ih =>
    rw [List.mapM_cons]
    cases ha : f a with
    | error e₀ =>
      rw [firstOf_of_head (e := e₀) (fun e' => by simp [ha, eq_comm])]
      exact ⟨fun h => by cases h; rfl, fun h => h ▸ rfl⟩
    | ok b =>
      rw [firstOf_of_tail (fun e' => by simp [ha])]
      simp only [List.getElem?_cons_succ, ← ih]
      cases as.mapM f with
      | error e₀ => exact ⟨fun h => by cases h; rfl, fun h => by cases h; rfl⟩
      | ok bs => exact ⟨nofun, nofun⟩

namespace Arithmetic

/-- The operand at place `i` is no number, or it divides and is zero. The first of two or more
operands does not divide. -/
inductive OffendsAt (op : Arithmetic) (vs : List Value) (i : Nat) : EvalError → Prop
  | noNumber {v : Value} (hv : vs[i]? = some v) (h : v.number? = none) :
    OffendsAt op vs i (.typeMismatch op.symbol "number" v.kind)
  | zeroDivisor {x : Float} (hop : op = divide) (hv : vs[i]? = some (.number x)) (hx : x == 0)
      (hplace : ¬(i = 0 ∧ 2 ≤ vs.length)) : OffendsAt op vs i .divisionByZero

/-- Of the operands that offend, the leftmost does so with this error. -/
def LeftmostOffends (op : Arithmetic) (vs : List Value) : EvalError → Prop :=
  FirstOf (op.OffendsAt vs)

/-- There is no operand where one is needed. -/
def LacksOperand (op : Arithmetic) (vs : List Value) : Prop :=
  vs = [] ∧ (op = subtract ∨ op = divide)

/-- What the procedures make of numbers. A single operand of a difference or a quotient stands
alone; otherwise the operands are folded from the left. -/
inductive Combines : Arithmetic → List Float → Float → Prop
  | sum (xs : List Float) : Combines add xs (xs.foldl (· + ·) (-0.0))
  | product (xs : List Float) : Combines multiply xs (xs.foldl (· * ·) 1.0)
  | negation (x : Float) : Combines subtract [x] (-x)
  | difference (x y : Float) (ys : List Float) :
    Combines subtract (x :: y :: ys) ((y :: ys).foldl (· - ·) x)
  | reciprocal (x : Float) : Combines divide [x] (1.0 / x)
  | quotient (x y : Float) (ys : List Float) :
    Combines divide (x :: y :: ys) ((y :: ys).foldl (· / ·) x)

variable {op : Arithmetic} {v : Value} {vs : List Value} {e : EvalError} {x : Float}

theorem number?_eq_some_iff : v.number? = some x ↔ v = .number x := by
  cases v <;> simp [Value.number?]

theorem operand_eq_ok_iff : op.operand v = .ok x ↔ v = .number x := by
  rw [← number?_eq_some_iff, operand]
  cases v.number? <;> simp

theorem operand_eq_error_iff :
    op.operand v = .error e ↔ v.number? = none ∧ e = .typeMismatch op.symbol "number" v.kind := by
  rw [operand]
  cases v.number? <;> simp [eq_comm]

theorem divisor_number (x : Float) :
    divisor (.number x) = if x == 0 then .error .divisionByZero else .ok x := rfl

theorem divisor_of_number?_none (h : v.number? = none) : divisor v = divide.operand v := by
  have herror : divide.operand v = .error (.typeMismatch divide.symbol "number" v.kind) :=
    operand_eq_error_iff.2 ⟨h, rfl⟩
  rw [divisor, herror]
  rfl

theorem divisor_eq_ok (h : divisor v = .ok x) : v = .number x := by
  cases hv : v.number? with
  | none =>
    rw [divisor_of_number?_none hv] at h
    exact operand_eq_ok_iff.1 h
  | some y =>
    obtain rfl := number?_eq_some_iff.1 hv
    rw [divisor_number] at h
    split at h
    · cases h
    · cases h
      rfl

theorem divisor_eq_error_iff : divisor v = .error e ↔ divide.operand v = .error e ∨
    ∃ x, v = .number x ∧ x == 0 ∧ e = .divisionByZero := by
  cases hv : v.number? with
  | none =>
    rw [divisor_of_number?_none hv]
    refine ⟨.inl, fun h => h.resolve_right ?_⟩
    rintro ⟨x, rfl, -⟩
    cases hv
  | some x =>
    obtain rfl := number?_eq_some_iff.1 hv
    have hnumber : divide.operand (.number x) = .ok x := rfl
    rw [divisor_number, hnumber]
    constructor
    · intro h
      split at h
      · next hx =>
        cases h
        exact .inr ⟨x, rfl, hx, rfl⟩
      · cases h
    · rintro (h | ⟨y, heq, hy, rfl⟩)
      · cases h
      · cases heq
        rw [if_pos hy]

theorem eq_map_of_mapM {f : Value → Except EvalError Float}
    (hf : ∀ {v x}, f v = .ok x → v = .number x) {xs : List Float} (h : vs.mapM f = .ok xs) :
    vs = xs.map .number := by
  induction vs generalizing xs with
  | nil =>
    cases h
    rfl
  | cons v vs ih =>
    rw [List.mapM_cons] at h
    obtain ⟨x, hx, h⟩ := bind_eq_ok_iff.1 h
    obtain ⟨ys, hys, h⟩ := bind_eq_ok_iff.1 h
    cases h
    rw [hf hx, ih hys, List.map_cons]

/-- Divisors that are checked as the division reaches them might as well be checked before it. -/
theorem divisions_eq (vs : List Value) (x : Float) :
    vs.foldlM (fun x v => return x / (← divisor v)) x =
      (fun ys => ys.foldl (· / ·) x) <$> vs.mapM divisor := by
  induction vs generalizing x with
  | nil => rfl
  | cons v vs ih =>
    rw [List.foldlM_cons, List.mapM_cons]
    cases divisor v with
    | error e => rfl
    | ok y =>
      change vs.foldlM _ (x / y) = _
      rw [ih]
      cases vs.mapM divisor <;> rfl

theorem offendsAt_iff_of_ne_divide (hop : op ≠ divide) (i : Nat) (e : EvalError) :
    op.OffendsAt vs i e ↔ ∃ v, vs[i]? = some v ∧ op.operand v = .error e := by
  constructor
  · intro h
    cases h with
    | noNumber hv h => exact ⟨_, hv, operand_eq_error_iff.2 ⟨h, rfl⟩⟩
    | zeroDivisor hdivide => exact absurd hdivide hop
  · intro h
    obtain ⟨v, hv, herror⟩ := h
    obtain ⟨hnone, rfl⟩ := operand_eq_error_iff.1 herror
    exact .noNumber hv hnone

theorem offendsAt_divide_iff {i : Nat} (hplace : ¬(i = 0 ∧ 2 ≤ vs.length)) (e : EvalError) :
    divide.OffendsAt vs i e ↔ ∃ v, vs[i]? = some v ∧ divisor v = .error e := by
  constructor
  · intro h
    cases h with
    | noNumber hv h =>
      exact ⟨_, hv, divisor_eq_error_iff.2 (.inl (operand_eq_error_iff.2 ⟨h, rfl⟩))⟩
    | zeroDivisor _ hv hx => exact ⟨_, hv, divisor_eq_error_iff.2 (.inr ⟨_, rfl, hx, rfl⟩)⟩
  · intro h
    obtain ⟨v, hv, herror⟩ := h
    rcases divisor_eq_error_iff.1 herror with herror | ⟨x, rfl, hx, rfl⟩
    · obtain ⟨hnone, rfl⟩ := operand_eq_error_iff.1 herror
      exact .noNumber hv hnone
    · exact .zeroDivisor rfl hv hx hplace

theorem offendsAt_divide_first_iff (v w : Value) (vs : List Value) (e : EvalError) :
    divide.OffendsAt (v :: w :: vs) 0 e ↔ divide.operand v = .error e := by
  constructor
  · intro h
    cases h with
    | noNumber hv h =>
      cases hv
      exact operand_eq_error_iff.2 ⟨h, rfl⟩
    | zeroDivisor _ _ _ hplace => exact absurd ⟨rfl, by simp⟩ hplace
  · intro h
    obtain ⟨hnone, rfl⟩ := operand_eq_error_iff.1 h
    exact .noNumber rfl hnone

/-- All checks of the operands, in their order. -/
def checked : Arithmetic → List Value → Except EvalError (List Float)
  | divide, [] => .ok []
  | divide, [v] => [v].mapM divisor
  | divide, v :: w :: vs => do
    let x ← divide.operand v
    let ys ← (w :: vs).mapM divisor
    return x :: ys
  | add, vs => add.operands vs
  | subtract, vs => subtract.operands vs
  | multiply, vs => multiply.operands vs

/-- What is computed from operands that passed the checks. -/
def combined : Arithmetic → List Float → Except EvalError Float
  | add, xs => .ok (sum xs)
  | subtract, xs => difference xs
  | multiply, xs => .ok (product xs)
  | divide, [] => .error divide.noOperand
  | divide, [x] => .ok (1.0 / x)
  | divide, x :: y :: ys => .ok ((y :: ys).foldl (· / ·) x)

theorem quotient_eq (vs : List Value) : quotient vs = divide.checked vs >>= divide.combined := by
  match vs with
  | [] => rfl
  | [v] =>
    rw [quotient, checked, List.mapM_cons, List.mapM_nil]
    cases divisor v <;> rfl
  | v :: w :: vs =>
    simp only [quotient, checked, divisions_eq, List.mapM_cons]
    cases divide.operand v with
    | error e => rfl
    | ok x => cases divisor w <;> cases vs.mapM divisor <;> rfl

/-- A procedure computes after its checks. -/
theorem apply_eq (op : Arithmetic) (vs : List Value) :
    op.apply vs = Value.number <$> (op.checked vs >>= op.combined) := by
  cases op with
  | add => cases h : add.operands vs <;> simp [apply, checked, h, combined] <;> rfl
  | subtract => rfl
  | multiply => cases h : multiply.operands vs <;> simp [apply, checked, h, combined] <;> rfl
  | divide => exact congrArg _ (quotient_eq vs)

theorem not_leftmostOffends_nil : ¬op.LeftmostOffends [] e := by
  rintro ⟨i, hi, -⟩
  cases hi with
  | noNumber hv => cases hv
  | zeroDivisor _ hv => cases hv

theorem checked_quotient_eq_error_iff {w : Value} :
    divide.checked (v :: w :: vs) = .error e ↔ divide.LeftmostOffends (v :: w :: vs) e := by
  rw [checked, LeftmostOffends]
  cases hv : divide.operand v with
  | error e₀ =>
    have hfirst (e' : EvalError) : divide.OffendsAt (v :: w :: vs) 0 e' ↔ e' = e₀ := by
      rw [offendsAt_divide_first_iff, hv, Except.error.injEq, eq_comm]
    rw [firstOf_of_head hfirst]
    exact ⟨fun h => by cases h; rfl, fun h => h ▸ rfl⟩
  | ok x =>
    have hfirst (e' : EvalError) : ¬divide.OffendsAt (v :: w :: vs) 0 e' := by
      rw [offendsAt_divide_first_iff, hv]
      nofun
    have hlater (i : Nat) (e' : EvalError) : divide.OffendsAt (v :: w :: vs) (i + 1) e' ↔
        ∃ u, (w :: vs)[i]? = some u ∧ divisor u = .error e' :=
      offendsAt_divide_iff (fun h => absurd h.1 (Nat.succ_ne_zero i)) e'
    rw [firstOf_of_tail hfirst, firstOf_congr hlater, ← mapM_eq_error_iff]
    cases (w :: vs).mapM divisor with
    | error e₀ => exact ⟨fun h => by cases h; rfl, fun h => by cases h; rfl⟩
    | ok ys => exact ⟨nofun, nofun⟩

theorem checked_eq_error_iff : op.checked vs = .error e ↔ op.LeftmostOffends vs e := by
  have heager (hop : op ≠ divide) : op.operands vs = .error e ↔ op.LeftmostOffends vs e :=
    mapM_eq_error_iff.trans (firstOf_congr (offendsAt_iff_of_ne_divide hop) e).symm
  cases op with
  | add | subtract | multiply => exact heager nofun
  | divide =>
    match vs with
    | [] => exact ⟨nofun, fun h => absurd h not_leftmostOffends_nil⟩
    | [v] =>
      have honly (i : Nat) (e' : EvalError) : divide.OffendsAt [v] i e' ↔
          ∃ u, [v][i]? = some u ∧ divisor u = .error e' :=
        offendsAt_divide_iff (fun h => absurd h.2 (by simp)) e'
      exact mapM_eq_error_iff.trans (firstOf_congr honly e).symm
    | v :: w :: vs => exact checked_quotient_eq_error_iff

theorem eq_map_of_checked {xs : List Float} (h : op.checked vs = .ok xs) :
    vs = xs.map .number := by
  cases op with
  | add | subtract | multiply => exact eq_map_of_mapM operand_eq_ok_iff.1 h
  | divide =>
    match vs with
    | [] =>
      cases h
      rfl
    | [v] => exact eq_map_of_mapM divisor_eq_ok h
    | v :: w :: vs =>
      obtain ⟨x, hx, h⟩ := bind_eq_ok_iff.1 h
      obtain ⟨ys, hys, h⟩ := bind_eq_ok_iff.1 h
      cases h
      rw [operand_eq_ok_iff.1 hx, eq_map_of_mapM divisor_eq_ok hys, List.map_cons]

theorem combined_eq_error_iff {xs : List Float} : op.combined xs = .error e ↔
    op.LacksOperand (xs.map .number) ∧ e = op.noOperand := by
  have hlacks : op.LacksOperand (xs.map .number) ↔ xs = [] ∧ (op = subtract ∨ op = divide) := by
    rw [LacksOperand, List.map_eq_nil_iff]
  rw [hlacks]
  match op, xs with
  | add, _ | multiply, _ => exact ⟨nofun, by simp⟩
  | subtract, [] | divide, [] => exact ⟨fun h => by cases h; simp, fun h => h.2 ▸ rfl⟩
  | subtract, [x] | divide, [x] => exact ⟨nofun, by simp⟩
  | subtract, x :: y :: ys | divide, x :: y :: ys => exact ⟨nofun, by simp⟩

theorem combines_of_combined {xs : List Float} (h : op.combined xs = .ok x) : op.Combines xs x := by
  match op, xs with
  | add, _ =>
    cases h
    exact .sum _
  | multiply, _ =>
    cases h
    exact .product _
  | subtract, [] | divide, [] => cases h
  | subtract, [x] =>
    cases h
    exact .negation _
  | divide, [x] =>
    cases h
    exact .reciprocal _
  | subtract, x :: y :: ys =>
    cases h
    exact .difference _ _ _
  | divide, x :: y :: ys =>
    cases h
    exact .quotient _ _ _

/-- A procedure fails because no operand is there, or with the error of the leftmost offender. -/
theorem apply_eq_error_iff : op.apply vs = .error e ↔
    op.LacksOperand vs ∧ e = op.noOperand ∨ op.LeftmostOffends vs e := by
  have hnumber (x : Float) : (Except.ok (.number x) : Except EvalError Value) ≠ .error e := nofun
  rw [apply_eq, map_eq_pure_bind, bind_eq_error_iff, bind_eq_error_iff, checked_eq_error_iff,
    or_comm (a := op.LacksOperand vs ∧ _), or_assoc]
  refine or_congr_right ⟨fun h => ?_, fun h => ?_⟩
  · obtain ⟨xs, hchecked, herror⟩ := h.resolve_right fun ⟨x, _, hx⟩ => hnumber x hx
    rw [eq_map_of_checked hchecked]
    exact combined_eq_error_iff.1 herror
  · obtain ⟨⟨rfl, hop⟩, rfl⟩ := h
    refine .inl ⟨[], ?_, combined_eq_error_iff.2 ⟨⟨rfl, hop⟩, rfl⟩⟩
    rcases hop with rfl | rfl <;> rfl

theorem number_of_apply {w : Value} (h : op.apply vs = .ok w) :
    ∃ xs x, vs = xs.map .number ∧ op.Combines xs x ∧ w = .number x := by
  rw [apply_eq, map_eq_pure_bind] at h
  obtain ⟨x, hx, hw⟩ := bind_eq_ok_iff.1 h
  obtain ⟨xs, hchecked, hcombined⟩ := bind_eq_ok_iff.1 hx
  cases hw
  exact ⟨xs, x, eq_map_of_checked hchecked, combines_of_combined hcombined, rfl⟩

/-- A procedure fails if and only if there is no operand where one is needed or some operand
offends. The leftmost that offends decides the error. Otherwise all operands are numbers, and the
result is what the procedure makes of them. -/
theorem leftmost_offender_decides (op : Arithmetic) (vs : List Value) :
    ((∃ e, op.apply vs = .error e) ↔ op.LacksOperand vs ∨ ∃ i e, op.OffendsAt vs i e) ∧
      (∀ e, op.apply vs = .error e ↔
        op.LacksOperand vs ∧ e = .arityMismatch op.symbol (.atLeast 1) 0 ∨
          op.LeftmostOffends vs e) ∧
      ∀ w, op.apply vs = .ok w →
        ∃ xs x, vs = xs.map .number ∧ op.Combines xs x ∧ w = .number x := by
  refine ⟨?_, fun e => apply_eq_error_iff, fun w => number_of_apply⟩
  simp only [apply_eq_error_iff, exists_or, exists_and_left, exists_eq, and_true]
  exact or_congr_right exists_firstOf_iff

/-- A zero that divides stands before a string; the zero in front, which is divided, does not
count. Differences and quotients need an operand. -/
theorem zero_before_string_decides :
    divide.apply [.number 0, .number (-0.0), .string "x"] = .error .divisionByZero ∧
      (∃ x, divide.apply [.number 0, .number 2] = .ok (.number x) ∧
        divide.Combines [0, 2] x) ∧
      subtract.apply [] = .error (.arityMismatch "-" (.atLeast 1) 0) ∧
      divide.apply [] = .error (.arityMismatch "/" (.atLeast 1) 0) ∧
      add.apply [.nil] = .error (.typeMismatch "+" "number" .nil) ∧
      multiply.apply [.string "x"] = .error (.typeMismatch "*" "number" .string) := by
  have hzero : divide.OffendsAt [.number 0, .number (-0.0), .string "x"] 1 .divisionByZero :=
    .zeroDivisor rfl rfl (by decide +kernel) (by simp)
  have hfirst (e : EvalError) :
      ¬divide.OffendsAt [.number 0, .number (-0.0), .string "x"] 0 e := by
    rw [offendsAt_divide_first_iff]
    nofun
  have hfails (op : Arithmetic) (vs : List Value) := (leftmost_offender_decides op vs).2.1
  refine ⟨?_, ?_, ?_, ?_, ?_, ?_⟩
  · refine (hfails divide _ _).2 (.inr ⟨1, hzero, fun j hj => ?_⟩)
    obtain rfl : j = 0 := by omega
    exact hfirst
  · have happly : divide.apply [.number 0, .number 2] = .ok (.number (0 / 2)) := rfl
    obtain ⟨xs, x, hxs, hcombines, hx⟩ := (leftmost_offender_decides divide _).2.2 _ happly
    match xs, hxs with
    | [_, _], rfl => exact ⟨x, happly.trans (congrArg _ hx), hcombines⟩
  · exact (hfails subtract [] _).2 (.inl ⟨⟨rfl, .inl rfl⟩, rfl⟩)
  · exact (hfails divide [] _).2 (.inl ⟨⟨rfl, .inr rfl⟩, rfl⟩)
  · have hnil : add.OffendsAt [.nil] 0 (.typeMismatch "+" "number" .nil) :=
      .noNumber (v := .nil) rfl rfl
    exact (hfails add _ _).2 (.inr ⟨0, hnil, fun j hj => absurd hj (Nat.not_lt_zero j)⟩)
  · have hstring : multiply.OffendsAt [.string "x"] 0 (.typeMismatch "*" "number" .string) :=
      .noNumber (v := .string "x") rfl rfl
    exact (hfails multiply _ _).2 (.inr ⟨0, hstring, fun j hj => absurd hj (Nat.not_lt_zero j)⟩)

end ScopedLisp.Arithmetic
