import Mathlib.Order.Monotone.Basic
import ScopedLisp.Proofs.SpecialForm.Parts
import ScopedLisp.Proofs.Value.Alike
import ScopedLisp.Value.Equality

namespace ScopedLisp

structure Renaming where
  scope : ScopeId → ScopeId
  closure : ClosureId → ClosureId
  scope_strictMono : StrictMono scope
  closure_strictMono : StrictMono closure

namespace Value

/-- The ids in the bodies of closures are renamed as well. -/
def rename (r : Renaming) : Value → Value
  | pair head tail => pair (rename r head) (rename r tail)
  | closure id name params body scope =>
    closure (r.closure id) name params (rename r body) (r.scope scope)
  | v => v

variable (r : Renaming)

theorem rename_native (label : String) (p : Procedure) :
    (native label p).rename r = native label p := rfl

theorem alike_rename (v : Value) :
    Alike (fun _ body scope body' scope' => body' = body.rename r ∧ scope' = r.scope scope)
      (fun _ => True) v (v.rename r) := by
  induction v with
  | number x => exact .number x
  | string content => exact .string content
  | boolean b => exact .boolean b
  | symbol x => exact .symbol x
  | nil => exact .nil
  | pair head tail ihhead ihtail => exact .pair ihhead ihtail
  | closure id name params body scope => exact .closure ⟨rfl, rfl⟩ id (r.closure id) name
  | native label p => exact .native trivial label

theorem text_rename (v : Value) : (v.rename r).text = v.text := (alike_rename r v).text.symm

theorem isTruthy_rename (v : Value) : (v.rename r).isTruthy = v.isTruthy :=
  (alike_rename r v).isTruthy.symm

theorem kind_rename (v : Value) : (v.rename r).kind = v.kind :=
  (alike_rename r v).sameOperand.2.symm

theorem number?_rename (v : Value) : (v.rename r).number? = v.number? :=
  (alike_rename r v).sameOperand.1.symm

theorem symbol?_rename (v : Value) : (v.rename r).symbol? = v.symbol? := by
  cases v <;> rfl

theorem rename_list (vs : List Value) : (list vs).rename r = list (vs.map (rename r)) := by
  induction vs with
  | nil => rfl
  | cons v vs ih => simp [rename, ih]

theorem items?_rename (v : Value) : (v.rename r).items? = v.items?.map (List.map (rename r)) := by
  induction v with
  | pair head tail _ ih =>
    rw [rename, items?, items?, ih, Option.map_map, Option.map_map]
    rfl
  | _ => rfl

/-- Closures are told apart by ids, which stay different. -/
theorem equal_rename (v w : Value) : (v.rename r).equal (w.rename r) = v.equal w := by
  induction v generalizing w with
  | pair head tail ihhead ihtail =>
    cases w with
    | pair head' tail' => simp [rename, equal, ihhead, ihtail]
    | _ => rfl
  | closure id =>
    cases w with
    | closure id' => simp [rename, equal, r.closure_strictMono.injective.eq_iff]
    | _ => rfl
  | _ => cases w <;> rfl

end Value

namespace SpecialForm

open Value

variable (r : Renaming)

theorem ofHead?_rename (head : Value) : ofHead? (head.rename r) = ofHead? head := by
  cases head <;> rfl

theorem quotedPart_rename (args : Value) :
    quotedPart (args.rename r) = (quotedPart args).map (rename r) := by
  cases args with
  | pair head tail => cases tail <;> rfl
  | _ => rfl

theorem conditionalParts_rename (args : Value) :
    conditionalParts (args.rename r) = (conditionalParts args).map (.map (rename r)) := by
  cases args with
  | pair condition rest =>
    cases rest with
    | pair consequent rest =>
      cases rest with
      | pair alternative rest => cases rest <;> rfl
      | _ => rfl
    | _ => rfl
  | _ => rfl

theorem parameters_rename (v : Value) : parameters (v.rename r) = parameters v := by
  induction v with
  | pair head tail _ ih =>
    rw [rename, parameters, parameters, ih, symbol?_rename, kind_rename]
  | _ => rfl

def LambdaParts.rename (l : LambdaParts) : LambdaParts := ⟨l.params, l.body.rename r⟩

theorem lambdaParts_rename (args : Value) :
    lambdaParts (args.rename r) = (lambdaParts args).map (.rename r) := by
  cases args with
  | pair params rest =>
    rw [Value.rename, lambdaParts, lambdaParts, parameters_rename]
    cases parameters params with
    | error fault => rfl
    | ok names =>
      cases rest with
      | pair body rest => cases rest <;> rfl
      | _ => rfl
  | _ => rfl

def DefunParts.rename (d : DefunParts) : DefunParts := ⟨d.name, d.definition.rename r⟩

theorem defunParts_rename (args : Value) :
    defunParts (args.rename r) = (defunParts args).map (.rename r) := by
  cases args with
  | pair head rest =>
    rw [Value.rename, defunParts, defunParts, symbol?_rename, kind_rename, lambdaParts_rename]
    cases head.symbol? with
    | none => rfl
    | some name => cases lambdaParts rest <;> rfl
  | _ => rfl

end SpecialForm

end ScopedLisp
