import ScopedLisp.Proofs.Relation
import ScopedLisp.Proofs.Store.Region
import ScopedLisp.Proofs.Substitution.Substitute
import ScopedLisp.Proofs.Value.Alike

/-!
The scopes of two runs, one in a frame that binds a name to an argument, the other in the scope
around it with the argument put in place of the name. The scopes that were there before stay what
they are; the frame of the first run belongs to the scope around it; and the frames of later calls
belong to each other one by one, with their numbers off by one. A later frame is inside if the name
means the argument in it, outside if it does not stand in the first frame or binds the name anew.
-/

namespace ScopedLisp

open Store

/-- A name and an argument for it, in a scope that reaches no native procedures but the arithmetic
ones. -/
structure Redex where
  store : Store
  Reached : ScopeId → Prop
  scope : ScopeId
  name : String
  argument : Value
  region : store.Region Reached Procedure.IsArithmetic
  reached : Reached scope
  within : argument.Within Reached Procedure.IsArithmetic

namespace Redex

inductive Mode
  | outside
  | inside

variable (b : Redex)

/-- The first run's frame for the name. -/
def frame : Nat := b.store.scopes.size

def IsOld (v : Value) : Prop := v.Within b.Reached Procedure.IsArithmetic

/-- An expression of the first run and the one that the second run has in its place. -/
def Corresponds : Mode → Value → Value → Prop
  | .outside, e, e' => e' = e
  | .inside, e, e' => ¬ (Value.symbol SpecialForm.defun.name).PartOf e ∧
      e' = .substitute b.name (.quotation b.argument) e

/-- The mode of a frame with these parameters that stands in a scope of mode `m`. -/
def inner (m : Mode) (params : List String) : Mode := if b.name ∈ params then .outside else m

/-- Scopes of the two runs that belong together. The modes of the frames of later calls are `w`. -/
inductive Linked (w : List Mode) : ScopeId → ScopeId → Mode → Prop
  | old {ρ : ScopeId} (hρ : b.Reached ρ) : Linked w ρ ρ .outside
  | frame : Linked w b.frame b.scope .inside
  | later {i : Nat} {m : Mode} (h : w[i]? = some m) :
      Linked w (b.frame + 1 + i) (b.frame + i) m

def Closures (w : List Mode) : Value.ClosureRel := fun params body scope body' scope' =>
  ∃ m, b.Linked w scope scope' m ∧ b.IsOld body ∧ b.Corresponds (b.inner m params) body body'

def Values (w : List Mode) : Value → Value → Prop :=
  Value.Alike (b.Closures w) Procedure.IsArithmetic

/-- The frames of a later call: they bind the same names to values that belong together, and stand
in scopes that belong together. -/
structure FramesOf (w : List Mode) (σ σ' : Store) (i : Nat) (m : Mode) : Prop where
  names (x : String) :
    Option.Rel (b.Values w) (σ.local? (b.frame + 1 + i) x) (σ'.local? (b.frame + i) x)
  parents : ∃ p p' m', σ.parent? (b.frame + 1 + i) = some p ∧
    σ'.parent? (b.frame + i) = some p' ∧ p < b.frame + 1 + i ∧ p' < b.frame + i ∧
    b.Linked w p p' m' ∧
    (m = m' ∧ (m = .inside → σ.local? (b.frame + 1 + i) b.name = none) ∨
      m = .outside ∧ (σ.local? (b.frame + 1 + i) b.name).isSome)

/-- The stores of the two runs belong together. -/
structure Stores (w : List Mode) (σ σ' : Store) : Prop where
  size : σ.scopes.size = b.frame + 1 + w.length
  size' : σ'.scopes.size = b.frame + w.length
  keeps : b.store.Keeps σ
  keeps' : b.store.Keeps σ'
  frameNames (x : String) : σ.local? b.frame x = if x = b.name then some b.argument else none
  frameParent : σ.parent? b.frame = some b.scope
  frames {i : Nat} {m : Mode} (h : w[i]? = some m) : b.FramesOf w σ σ' i m

variable {b} {w w₁ : List Mode} {σ σ' : Store} {ρ ρ' : ScopeId} {m : Mode}

theorem scope_lt_frame : b.scope < b.frame := b.region.size b.reached

theorem Linked.mono (h : b.Linked w ρ ρ' m) (hw : w <+: w₁) : b.Linked w₁ ρ ρ' m := by
  cases h with
  | old hρ => exact .old hρ
  | frame => exact .frame
  | later hm =>
    obtain ⟨more, rfl⟩ := hw
    refine .later ?_
    rw [List.getElem?_append_left (List.getElem?_eq_some_iff.1 hm).1, hm]

theorem Closures.mono {params : List String} {body body' : Value} {scope scope' : ScopeId}
    (h : b.Closures w params body scope body' scope') (hw : w <+: w₁) :
    b.Closures w₁ params body scope body' scope' := by
  obtain ⟨m, hlinked, hbody, hcode⟩ := h
  exact ⟨m, hlinked.mono hw, hbody, hcode⟩

theorem Values.mono {v v' : Value} (h : b.Values w v v') (hw : w <+: w₁) : b.Values w₁ v v' :=
  Value.Alike.mono h (fun _ _ _ _ _ hc => hc.mono hw) fun _ hp => hp

theorem inner_outside (params : List String) : b.inner .outside params = .outside := by
  unfold inner
  split <;> rfl

/-- What is there from the start belongs to itself. -/
theorem values_self {v : Value} (hv : b.IsOld v) : b.Values w v v := by
  refine Value.alike_self (fun params body scope hscope hbody => ?_) hv
  refine ⟨.outside, .old hscope, hbody, ?_⟩
  rw [inner_outside]
  exact rfl

/-- What names mean in two scopes that belong together: inside, the name means the argument in the
first run, and all others mean what they mean in the second one. -/
structure Means (b : Redex) (w : List Mode) (σ σ' : Store) (ρ ρ' : ScopeId) (m : Mode) :
    Prop where
  argument (hm : m = .inside) : σ.get? ρ b.name = some b.argument
  others (x : String) (hx : m = .inside → x ≠ b.name) :
    Option.Rel (b.Values w) (σ.get? ρ x) (σ'.get? ρ' x)

theorem Stores.means_old (hσ : b.Stores w σ σ') (hρ : b.Reached ρ) :
    b.Means w σ σ' ρ ρ .outside := by
  refine ⟨nofun, fun x _ => ?_⟩
  rw [hσ.keeps.get? (b.region.size hρ), hσ.keeps'.get? (b.region.size hρ)]
  cases hv : b.store.get? ρ x with
  | none => exact .none
  | some v => exact .some (values_self (b.region.get? hρ hv))

theorem Stores.means_frame (hσ : b.Stores w σ σ') :
    b.Means w σ σ' b.frame b.scope .inside := by
  constructor
  · intro _
    rw [get?_eq, hσ.frameNames, if_pos rfl, Option.some_or]
  · intro x hx
    rw [get?_eq, hσ.frameNames, if_neg (hx rfl), hσ.frameParent, Option.none_or,
      Option.bind_some, if_pos scope_lt_frame]
    exact (hσ.means_old b.reached).others x nofun

theorem Stores.means (hσ : b.Stores w σ σ') (h : b.Linked w ρ ρ' m) :
    b.Means w σ σ' ρ ρ' m := by
  induction ρ using Nat.strongRecOn generalizing ρ' m with
  | _ ρ ih =>
    cases h with
    | old hρ => exact hσ.means_old hρ
    | frame => exact hσ.means_frame
    | @later i _ hm =>
      have hframes := hσ.frames hm
      obtain ⟨p, p', m', hp, hp', hlt, hlt', hlinked, hmode⟩ := hframes.parents
      have hparent := ih p hlt hlinked
      constructor
      · intro heq
        subst heq
        rcases hmode with ⟨rfl, hnone⟩ | ⟨hm, -⟩
        · rw [get?_eq, hnone rfl, hp, Option.none_or, Option.bind_some, if_pos hlt]
          exact hparent.argument rfl
        · cases hm
      · intro x hx
        rw [get?_eq σ, get?_eq σ', hp, hp', Option.bind_some, Option.bind_some, if_pos hlt,
          if_pos hlt']
        by_cases hinside : m' = .inside → x ≠ b.name
        · exact (hframes.names x).or (hparent.others x hinside)
        -- the name itself in an outer scope that is inside: then the frame binds it anew
        · rcases hmode with ⟨rfl, -⟩ | ⟨-, hsome⟩
          · exact absurd hx hinside
          · have hname : x = b.name := by
              by_cases hname : x = b.name
              · exact hname
              · exact absurd (fun _ => hname) hinside
            have hbound := hframes.names b.name
            rw [← hname] at hbound hsome
            generalize σ.local? (b.frame + 1 + i) x = u, σ'.local? (b.frame + i) x = u' at *
            cases hbound with
            | some hv => exact .some hv
            | none => cases hsome

theorem Stores.lt_of_linked (hσ : b.Stores w σ σ') (h : b.Linked w ρ ρ' m) :
    ρ < σ.scopes.size ∧ ρ' < σ'.scopes.size := by
  rw [hσ.size, hσ.size']
  cases h with
  | old hρ =>
    have hlt : ρ < b.frame := b.region.size hρ
    exact ⟨Nat.lt_of_lt_of_le hlt (by omega), Nat.lt_of_lt_of_le hlt (by omega)⟩
  | frame =>
    exact ⟨Nat.lt_of_lt_of_le (Nat.lt_succ_self _) (Nat.le_add_right _ _),
      Nat.lt_of_lt_of_le b.scope_lt_frame (Nat.le_add_right _ _)⟩
  | later hm =>
    have hlt := (List.getElem?_eq_some_iff.1 hm).1
    exact ⟨Nat.add_lt_add_left hlt _, Nat.add_lt_add_left hlt _⟩

theorem Stores.newClosureId (hσ : b.Stores w σ σ') :
    b.Stores w σ.newClosureId.2 σ'.newClosureId.2 :=
  ⟨hσ.size, hσ.size', hσ.keeps, hσ.keeps', hσ.frameNames, hσ.frameParent,
    fun hm => ⟨(hσ.frames hm).names, (hσ.frames hm).parents⟩⟩

/-- The frames of a later call stay together while both stores keep them. -/
theorem FramesOf.keeps {σ₁ σ₁' : Store} {i : Nat} (h : b.FramesOf w σ σ' i m)
    (hk : σ.Keeps σ₁) (hk' : σ'.Keeps σ₁') (hi : b.frame + 1 + i < σ.scopes.size)
    (hi' : b.frame + i < σ'.scopes.size) (hw : w <+: w₁) : b.FramesOf w₁ σ₁ σ₁' i m := by
  obtain ⟨p, p', m', hp, hp', hlt, hlt', hlinked, hmode⟩ := h.parents
  constructor
  · intro x
    rw [hk.local? hi, hk'.local? hi']
    exact (h.names x).mono fun _ _ hv => hv.mono hw
  · rw [hk.parent? hi, hk'.parent? hi', hk.local? hi]
    exact ⟨p, p', m', hp, hp', hlt, hlt', hlinked.mono hw, hmode⟩

/-- A call in two scopes that belong together adds two frames that belong together. -/
theorem Stores.enter (hσ : b.Stores w σ σ') {scope scope' : ScopeId}
    (hlinked : b.Linked w scope scope' m) {params : List String} {vs vs' : List Value}
    (hvs : List.Forall₂ (b.Values w) vs vs') (hn : vs.length = params.length) :
    b.Stores (w ++ [b.inner m params]) (σ.enter scope (params.zip vs))
      (σ'.enter scope' (params.zip vs')) := by
  have hw : w <+: w ++ [b.inner m params] := List.prefix_append w _
  have hk := Keeps.enter σ scope (params.zip vs)
  have hk' := Keeps.enter σ' scope' (params.zip vs')
  have hframe : b.frame < σ.scopes.size := by
    rw [hσ.size]
    omega
  refine ⟨?_, ?_, hσ.keeps.trans hk, hσ.keeps'.trans hk', fun x => ?_, ?_, fun {i m₁} hm₁ => ?_⟩
  · rw [size_enter, hσ.size]
    simp [Nat.add_assoc]
  · rw [size_enter, hσ.size']
    simp [Nat.add_assoc]
  · rw [hk.local? hframe]
    exact hσ.frameNames x
  · rw [hk.parent? hframe]
    exact hσ.frameParent
  · rcases Nat.lt_or_ge i w.length with hi | hi
    · rw [List.getElem?_append_left hi] at hm₁
      exact (hσ.frames hm₁).keeps hk hk' (by rw [hσ.size]; omega) (by rw [hσ.size']; omega) hw
    · have hlt : i < w.length + 1 := by
        have hlt := (List.getElem?_eq_some_iff.1 hm₁).1
        simpa using hlt
      obtain rfl : i = w.length := by omega
      rw [List.getElem?_append_right hi, Nat.sub_self, List.getElem?_cons_zero] at hm₁
      cases hm₁
      have hscope := hσ.lt_of_linked hlinked
      rw [hσ.size, hσ.size'] at hscope
      constructor
      · intro x
        rw [← hσ.size, ← hσ.size', local?_enter_frame, local?_enter_frame]
        exact (lookup_zip_rel hvs params x).mono fun _ _ hv => hv.mono hw
      · rw [← hσ.size, ← hσ.size', parent?_enter_frame, parent?_enter_frame, local?_enter_frame,
          hσ.size, hσ.size']
        refine ⟨scope, scope', m, rfl, rfl, hscope.1, hscope.2, hlinked.mono hw, ?_⟩
        have hsome := lookup_zip_isSome_iff hn b.name
        unfold inner
        by_cases hx : b.name ∈ params
        · rw [if_pos hx]
          exact .inr ⟨rfl, hsome.2 hx⟩
        · rw [if_neg hx]
          refine .inl ⟨rfl, fun _ => ?_⟩
          rw [← Option.not_isSome_iff_eq_none, hsome]
          exact hx

/-- A definition in two frames that belong together. Inside there is none. -/
theorem Stores.bind (hσ : b.Stores w σ σ') {i : Nat} (hi : w[i]? = some .outside) (x : String)
    {v v' : Value} (hv : b.Values w v v') :
    b.Stores w (σ.bind (b.frame + 1 + i) x v) (σ'.bind (b.frame + i) x v') := by
  have hilt := (List.getElem?_eq_some_iff.1 hi).1
  have hlt : b.frame + 1 + i < σ.scopes.size := by
    rw [hσ.size]
    omega
  have hlt' : b.frame + i < σ'.scopes.size := by
    rw [hσ.size']
    omega
  refine ⟨?_, ?_, fun j hj => ?_, fun j hj => ?_, fun y => ?_, ?_, fun {j m₁} hm₁ => ?_⟩
  · rw [size_bind, hσ.size]
  · rw [size_bind, hσ.size']
  · have hne : j ≠ b.frame + 1 + i :=
      Nat.ne_of_lt (Nat.lt_of_lt_of_le hj (show b.frame ≤ b.frame + 1 + i by omega))
    rw [getElem?_bind_ne σ x v hne]
    exact hσ.keeps j hj
  · have hne : j ≠ b.frame + i := Nat.ne_of_lt (Nat.lt_of_lt_of_le hj (Nat.le_add_right _ i))
    rw [getElem?_bind_ne σ' x v' hne]
    exact hσ.keeps' j hj
  · have hne : b.frame ≠ b.frame + 1 + i := by omega
    rw [local?_bind_ne σ x y v hne]
    exact hσ.frameNames y
  · rw [parent?_bind]
    exact hσ.frameParent
  · obtain ⟨p, p', m', hp, hp', hplt, hplt', hlinked, hmode⟩ := (hσ.frames hm₁).parents
    by_cases hj : j = i
    · subst hj
      rw [hi] at hm₁
      cases hm₁
      constructor
      · intro y
        rw [local?_bind_self hlt, local?_bind_self hlt']
        by_cases hy : y = x
        · rw [if_pos hy, if_pos hy]
          exact .some hv
        · rw [if_neg hy, if_neg hy]
          exact (hσ.frames hi).names y
      · rw [parent?_bind, parent?_bind, local?_bind_self hlt]
        refine ⟨p, p', m', hp, hp', hplt, hplt', hlinked, ?_⟩
        rcases hmode with ⟨rfl, -⟩ | ⟨-, hsome⟩
        · exact .inl ⟨rfl, nofun⟩
        · refine .inr ⟨rfl, ?_⟩
          split
          · rfl
          · exact hsome
    · have hne : b.frame + 1 + j ≠ b.frame + 1 + i := by omega
      have hne' : b.frame + j ≠ b.frame + i := by omega
      constructor
      · intro y
        rw [local?_bind_ne σ x y v hne, local?_bind_ne σ' x y v' hne']
        exact (hσ.frames hm₁).names y
      · rw [parent?_bind, parent?_bind, local?_bind_ne σ x b.name v hne]
        exact ⟨p, p', m', hp, hp', hplt, hplt', hlinked, hmode⟩

end Redex

end ScopedLisp
