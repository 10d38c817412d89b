import ScopedLisp.Position
import ScopedLisp.SpecialForm
import ScopedLisp.Kind

namespace ScopedLisp

/-- The activity that an error belongs to. -/
inductive Stage
  | scanning
  | reading
  | evaluation
  deriving DecidableEq

inductive ScanFault
  | unterminatedString
  | unexpectedCharacter (c : Char)
  deriving DecidableEq

abbrev ScanError := Placed ScanFault

inductive ReadFault
  | scan (fault : ScanFault)
  | unexpectedCloseParen
  | unexpectedEndOfInput
  | unterminatedList
  | invalidNumeral (lexeme : String)
  deriving DecidableEq

abbrev ReadError := Placed ReadFault

/-- How the shape of a special form can be wrong. -/
inductive ShapeFault
  | notOneArgument
  | tooFewArguments
  | tooManyArguments
  | improperArguments
  | noNameAndParameters
  | nameNotSymbol (kind : Kind)
  | noParameters
  | parameterNotSymbol (kind : Kind)
  | improperParameters
  | noBody
  | severalBodies
  deriving DecidableEq

/-- How many arguments a procedure takes. -/
inductive Arity
  | exactly (count : Nat)
  | atLeast (count : Nat)
  deriving DecidableEq

inductive EvalError
  | undefinedVariable (name : String)
  | typeMismatch (procedure expected : String) (actual : Kind)
  | arityMismatch (procedure : String) (expected : Arity) (count : Nat)
  | notCallable (text : String)
  | divisionByZero
  | malformedForm (form : SpecialForm) (fault : ShapeFault)
  deriving DecidableEq

inductive Error
  | read (error : ReadError)
  | eval (error : EvalError)

namespace ScanFault

def text : ScanFault → String
  | unterminatedString => "Unterminated string"
  | unexpectedCharacter c => "Unexpected character '" ++ c.toString ++ "'"

end ScanFault

namespace ReadFault

def text : ReadFault → String
  | scan fault => fault.text
  | unexpectedCloseParen => "Unexpected ')'"
  | unexpectedEndOfInput => "Unexpected end of input"
  | unterminatedList => "Unterminated list: expected ')' before end of input"
  | invalidNumeral lexeme => "Invalid number literal '" ++ lexeme ++ "'"

def stage : ReadFault → Stage
  | scan _ => .scanning
  | _ => .reading

end ReadFault

def ScanError.toReadError (e : ScanError) : ReadError := ⟨.scan e.item, e.position⟩

def ReadError.message (e : ReadError) : String := e.item.text ++ " at " ++ e.position.text

namespace ShapeFault

def text : ShapeFault → String
  | notOneArgument => "requires exactly 1 argument"
  | tooFewArguments => "requires at least 2 arguments"
  | tooManyArguments => "accepts at most 3 arguments"
  | improperArguments => "invalid argument list"
  | noNameAndParameters => "requires a name, parameter list and body"
  | nameNotSymbol kind => "function name must be a symbol, got " ++ kind.name
  | noParameters => "requires a parameter list and a body"
  | parameterNotSymbol kind => "parameter must be a symbol, got " ++ kind.name
  | improperParameters => "invalid parameter list"
  | noBody => "requires a body"
  | severalBodies => "body must be a single expression"

end ShapeFault

def Arity.text : Arity → String
  | exactly n => n.repr
  | atLeast n => "at least " ++ n.repr

def EvalError.message : EvalError → String
  | undefinedVariable x => "Undefined variable: " ++ x
  | typeMismatch f expected actual =>
    "Type error in " ++ f ++ ": expected " ++ expected ++ ", got " ++ actual.name
  | arityMismatch f expected n =>
    "Arity mismatch in " ++ f ++ ": expected " ++ expected.text ++ " argument(s), got " ++ n.repr
  | notCallable text => "Value is not callable: " ++ text
  | divisionByZero => "Division by zero"
  | malformedForm form fault => "Malformed special form " ++ form.name ++ ": " ++ fault.text

namespace Error

def stage : Error → Stage
  | read e => e.item.stage
  | eval _ => .evaluation

/-- Only errors of a text have a place. -/
def position? : Error → Option Position
  | read e => some e.position
  | eval _ => none

def message : Error → String
  | read e => ReadError.message e
  | eval e => e.message

end Error

end ScopedLisp
