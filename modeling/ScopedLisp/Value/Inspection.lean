import ScopedLisp.Numeral.Layout
import ScopedLisp.Value

namespace ScopedLisp

namespace Inspection

/-- Control characters: below the space, and from delete up to the end of the second control
block. -/
def isControl (c : Char) : Bool := c.toNat < 0x20 || (0x7f ≤ c.toNat && c.toNat < 0xa0)

def escaped (c : Char) : List Char :=
  match c with
  | '"' => ['\\', '"']
  | '\\' => ['\\', '\\']
  | '\n' => ['\\', 'n']
  | '\r' => ['\\', 'r']
  | '\t' => ['\\', 't']
  | '\x00' => ['\\', '0']
  | c => if isControl c then '\\' :: 'u' :: '\x7b' :: Nat.toDigits 16 c.toNat ++ ['\x7d'] else [c]

def quoted (s : String) : List Char := '"' :: s.toList.flatMap escaped ++ ['"']

def names (xs : List String) : List Char :=
  '[' :: [',', ' '].intercalate (xs.map quoted) ++ [']']

def optionalName : Option String → List Char
  | none => "None".toList
  | some s => "Some(".toList ++ quoted s ++ [')']

end Inspection

open Inspection

/-- The inspection form of a value with `rest` after it. It is built from its end, so that no part
of it is copied. -/
def Value.inspectionBefore (rest : List Char) : Value → List Char
  | number x => "Number(".toList ++ Layout.inspection.write x ++ ')' :: rest
  | string content => "Str(".toList ++ quoted content ++ ')' :: rest
  | boolean b => "Boolean(".toList ++ (if b then "true" else "false").toList ++ ')' :: rest
  | symbol name => "Symbol(".toList ++ name.toList ++ ')' :: rest
  | nil => "Nil".toList ++ rest
  | pair head tail =>
    "Cons(".toList ++ inspectionBefore (',' :: ' ' :: inspectionBefore (')' :: rest) tail) head
  | closure _ name params body _ =>
    "Lambda \x7b name: ".toList ++ optionalName name ++ ", params: ".toList ++ names params ++
      ", body: ".toList ++ inspectionBefore (", .. \x7d".toList ++ rest) body
  | native label _ => "Builtin(".toList ++ label.toList ++ ')' :: rest

/-- Every constructor is shown by name, a closure without its scope, which may hold that very
closure. -/
def Value.inspection (v : Value) : List Char := inspectionBefore [] v

end ScopedLisp
