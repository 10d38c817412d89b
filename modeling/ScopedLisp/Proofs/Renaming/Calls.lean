import ScopedLisp.Proofs.Evaluation.Isolation
import ScopedLisp.Proofs.Renaming.Copy
import ScopedLisp.Proofs.Renaming.Evaluation

namespace ScopedLisp

open EvalM

/-- The foreign procedures may hold ids that the store has given out, and none that are new. -/
def Embedding.KnownIn (σ : Store) (ext : Embedding) : Prop :=
  ∀ r, Renaming.refl.AgreesOn σ r → ext.RenamedBy r

namespace Value

variable {σ : Store} {r : Renaming} {v : Value} {vs : List Value}

/-- Values are left alone by what leaves alone the ids in them. -/
theorem KnownIn.rename_eq (hv : v.KnownIn σ) (hr : Renaming.refl.AgreesOn σ r) :
    v.rename r = v := (rename_congr hv hr).trans (Renaming.rename_refl v)

theorem KnownIn.map_rename_eq (hvs : ∀ v ∈ vs, v.KnownIn σ) (hr : Renaming.refl.AgreesOn σ r) :
    vs.map (.rename r) = vs := by
  have hsame : vs.map (.rename r) = vs.map id :=
    List.map_congr_left fun v hv => (hvs v hv).rename_eq hr
  rw [hsame, List.map_id]

end Value

variable {ext : Embedding} {σ : Store} {f : Value} {args : List Value}

theorem call_after_call (hext : ext.KnownIn σ) (hσ : σ.SelfContained) (hf : f.KnownIn σ)
    (hargs : ∀ v ∈ args, v.KnownIn σ) {limit' : Nat} {g : Value} {args' : List Value}
    {result' : Except EvalError Value} {σ' : Store}
    (hother : apply ext limit' g args' σ = some (result', σ')) :
    ∃ r, Renaming.refl.AgreesOn σ r ∧ ∀ limit,
      Option.Rel r.Takes (apply ext limit f args σ) (apply ext limit f args σ') := by
  -- The other call has only added scopes: `σ` is in `σ'` under the ids that it had.
  have hkeeps : σ.Keeps σ' := (eval_grows_apply_keeps ext limit').2 g args' σ hother fun _ _ => rfl
  have hleads := (eval_apply_leadsTo ext limit' σ).2 g args' hother (.refl σ)
  have hcopy := hkeeps.copiedBy hleads.closures_le
  obtain ⟨r, hr, hrenames⟩ := hcopy.exists_renames hσ
  refine ⟨r, hr, fun limit => ?_⟩
  have hcall := Renaming.takes_of_beside
    ((Renaming.beside_eval_apply (hext r hr) limit).2 f args) hrenames
  rwa [hf.rename_eq hr, Value.KnownIn.map_rename_eq hargs hr] at hcall

/-- A call that comes after another one, whatever that one did and whether or not it failed, ends
if and only if it would have ended before it; it fails with the same error or gives the same value,
and leaves the same scopes, up to the ids of scopes and closures that are new. In particular, a call
that is made again at once has the same outcome again. -/
theorem calls_commute (hext : ext.KnownIn σ) (hσ : σ.SelfContained) (hf : f.KnownIn σ)
    (hargs : ∀ v ∈ args, v.KnownIn σ) :
    (∀ limit' g args' result' σ', apply ext limit' g args' σ = some (result', σ') →
      ∃ r, Renaming.refl.AgreesOn σ r ∧ ∀ limit,
        Option.Rel r.Takes (apply ext limit f args σ) (apply ext limit f args σ')) ∧
    ∀ limit result σ₁, apply ext limit f args σ = some (result, σ₁) →
      ∃ r σ₂, Renaming.refl.AgreesOn σ r ∧
        apply ext limit f args σ₁ = some (result.map (.rename r), σ₂) := by
  refine ⟨fun _ _ _ _ _ hother => call_after_call hext hσ hf hargs hother, ?_⟩
  intro limit result σ₁ hrun
  obtain ⟨r, hr, hagain⟩ := call_after_call hext hσ hf hargs hrun
  have hsecond := hagain limit
  rw [hrun] at hsecond
  cases hcall : apply ext limit f args σ₁ with
  | none =>
    rw [hcall] at hsecond
    cases hsecond
  | some outcome =>
    rw [hcall] at hsecond
    obtain ⟨result₂, σ₂⟩ := outcome
    cases hsecond with
    | some h => exact ⟨r, σ₂, hr, congrArg (fun o => some (o, σ₂)) h.result⟩

namespace Embedding

variable {r : Renaming}

theorem renames_unary {name : String} {f : Value → Except EvalError Value}
    (h : ∀ v, f (v.rename r) = (f v).map (.rename r)) (args : List Value) :
    (unary name f args).Renames r (unary name f (args.map (.rename r))) := by
  match args with
  | [v] =>
    rw [List.map_singleton, unary, unary, h]
    exact .done _
  | [] => exact .done _
  | v :: w :: rest =>
    simp only [unary, List.map_cons, List.length_cons, List.length_map]
    exact .done _

theorem renames_binary {name : String} {f : Value → Value → NativeStep}
    (h : ∀ v w, (f v w).Renames r (f (v.rename r) (w.rename r))) (args : List Value) :
    (binary name f args).Renames r (binary name f (args.map (.rename r))) := by
  match args with
  | [v, w] => exact h v w
  | [] | [_] => exact .done _
  | u :: v :: w :: rest =>
    simp only [binary, List.map_cons, List.length_cons, List.length_map]
    exact .done _

theorem less_rename (v w : Value) :
    less (v.rename r) (w.rename r) = (less v w).map (.rename r) := by
  have hnumber (v : Value) : less.number (v.rename r) = less.number v := by
    rw [less.number, less.number, Value.number?_rename, Value.kind_rename]
  rw [less, less, hnumber, hnumber]
  cases less.number v with
  | error e => rfl
  | ok x => cases less.number w <;> rfl

theorem renames_applyToList (f vs : Value) :
    (applyToList f vs).Renames r (applyToList (f.rename r) (vs.rename r)) := by
  rw [applyToList, applyToList, Value.items?_rename, Value.kind_rename]
  cases vs.items? with
  | none => exact .done _
  | some items => exact .apply f items fun outcome => .done outcome

/-- The procedures on lists take no notice of ids. -/
theorem renamedBy_listTools (r : Renaming) : listTools.RenamedBy r := by
  intro name f h args
  unfold listTools at h
  split at h <;> cases h
  · dsimp only
    rw [← Value.rename_list]
    exact .done _
  · exact renames_binary (fun v w => .done _) args
  · exact renames_unary (fun v => by cases v <;> rfl) args
  · exact renames_unary (fun v => by cases v <;> rfl) args
  · refine renames_binary (fun v w => ?_) args
    rw [Value.equal_rename]
    exact .done _
  · refine renames_binary (fun v w => ?_) args
    rw [less_rename]
    exact .done _
  · exact renames_binary renames_applyToList args

end Embedding

/-- `(lambda (x) (lambda (y) x))` in the scope 0 -/
private def maker : Value :=
  .closure 0 none ["x"] (.list [.symbol "lambda", .list [.symbol "y"], .symbol "x"]) 0

/-- A new global scope, in which one closure has been made. -/
private def workshop : Store := Store.empty.newGlobal.2.newClosureId.2

private def makerCall : EvalM Value :=
  apply .listTools 4 (.native "apply" (.foreign "apply")) [maker, .list [.number 4]]

/-- A call that makes a closure makes another one when it is made again, with the same body in a
frame like the first one's. -/
theorem closure_made_again :
    ∃ σ₁, makerCall workshop = some (.ok (.closure 1 none ["y"] (.symbol "x") 1), σ₁) ∧
      ∃ r σ₂, Renaming.refl.AgreesOn workshop r ∧ makerCall σ₁ =
        some (.ok (.closure (r.closure 1) none ["y"] (.symbol "x") (r.scope 1)), σ₂) := by
  have hstore : workshop.SelfContained := Store.SelfContained.empty.newGlobal.newClosureId
  have happly : (Value.native "apply" (.foreign "apply")).KnownIn workshop := trivial
  have hargs : ∀ v ∈ [maker, .list [.number 4]], v.KnownIn workshop := by
    have hids : 0 < workshop.closures ∧ 0 < workshop.scopes.size := by decide +kernel
    simp [maker, Value.KnownIn, hids]
  have hcalls := calls_commute (fun r _ => Embedding.renamedBy_listTools r) hstore happly hargs
  obtain ⟨σ₁, hfirst⟩ : ∃ σ₁, makerCall workshop =
      some (.ok (.closure 1 none ["y"] (.symbol "x") 1), σ₁) := ⟨_, rfl⟩
  exact ⟨σ₁, hfirst, hcalls.2 4 _ σ₁ hfirst⟩

end ScopedLisp
