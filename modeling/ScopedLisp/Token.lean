namespace ScopedLisp

inductive Token
  | leftParen
  | rightParen
  | quote
  | number (lexeme : String)
  | string (content : String)
  | symbol (name : String)
  | endOfInput
  deriving DecidableEq

/-- The characters that separate tokens. -/
def isBlank (c : Char) : Bool := c == ' ' || c == '\t' || c == '\r' || c == '\n'

def isSymbolStart (c : Char) : Bool :=
  c.isAlpha || c == '+' || c == '-' || c == '*' || c == '/' || c == '=' || c == '<' || c == '>' ||
    c == '!'

def isSymbolChar (c : Char) : Bool := isSymbolStart c || c.isDigit || c == '_'

namespace Token

/-- What a token is called where one is expected. -/
def description : Token → String
  | leftParen => "'('"
  | rightParen => "')'"
  | quote => "quote"
  | number _ => "number"
  | string _ => "string"
  | symbol _ => "symbol"
  | endOfInput => "end of input"

/-- The text of a token; of a string the part between its quotes. -/
def lexeme : Token → String
  | leftParen => "("
  | rightParen => ")"
  | quote => "'"
  | number lexeme => lexeme
  | string content => content
  | symbol name => name
  | endOfInput => ""

/-- The characters that a token occupies in the text. -/
def source : Token → List Char
  | string content => '"' :: content.toList ++ ['"']
  | t => t.lexeme.toList

/-- A token whose text has been used up. -/
def spent : Token → Token
  | number _ => number ""
  | string _ => string ""
  | symbol _ => symbol ""
  | t => t

end Token

end ScopedLisp
