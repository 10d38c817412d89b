import ScopedLisp.Error
import ScopedLisp.Value

namespace ScopedLisp.SpecialForm

/-- The special form that a head names. Only a symbol names one, whatever it is bound to. -/
def ofHead? : Value → Option SpecialForm
  | .symbol name => ofName? name
  | _ => none

def quotedPart : Value → Except ShapeFault Value
  | .pair quoted .nil => .ok quoted
  | _ => .error .notOneArgument

structure ConditionalParts where
  condition : Value
  consequent : Value
  alternative : Option Value

def conditionalParts : Value → Except ShapeFault ConditionalParts
  | .pair condition (.pair consequent .nil) => .ok ⟨condition, consequent, none⟩
  | .pair condition (.pair consequent (.pair alternative .nil)) =>
    .ok ⟨condition, consequent, some alternative⟩
  | .pair _ (.pair _ (.pair _ _)) => .error .tooManyArguments
  | .pair _ (.pair _ _) => .error .improperArguments
  | _ => .error .tooFewArguments

def parameters : Value → Except ShapeFault (List String)
  | .nil => .ok []
  | .pair head tail =>
    match head.symbol? with
    | some name => (name :: ·) <$> parameters tail
    | none => .error (.parameterNotSymbol head.kind)
  | _ => .error .improperParameters

structure LambdaParts where
  params : List String
  body : Value

/-- The parameters are looked at before the body. -/
def lambdaParts : Value → Except ShapeFault LambdaParts
  | .pair params rest => do
    let params ← parameters params
    match rest with
    | .pair body .nil => .ok ⟨params, body⟩
    | .pair _ _ => .error .severalBodies
    | _ => .error .noBody
  | _ => .error .noParameters

structure DefunParts where
  name : String
  definition : LambdaParts

def defunParts : Value → Except ShapeFault DefunParts
  | .pair head rest =>
    match head.symbol? with
    | some name => DefunParts.mk name <$> lambdaParts rest
    | none => .error (.nameNotSymbol head.kind)
  | _ => .error .noNameAndParameters

end ScopedLisp.SpecialForm
