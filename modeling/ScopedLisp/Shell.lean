import ScopedLisp.Session
import ScopedLisp.Shell.WhiteSpace

namespace ScopedLisp.Shell

def version : String := "0.1.0"

/-- Why a file has no text. -/
inductive FileFault
  | missing
  | directory
  | notText
  deriving DecidableEq

def FileFault.text : FileFault → String
  | missing => "No such file or directory (os error 2)"
  | directory => "Is a directory (os error 21)"
  | notText => "stream did not contain valid UTF-8"

/-- What a run leaves behind. -/
structure Result where
  exitCode : UInt32
  stdout : String
  stderr : String

/-- Bytes that are no text have no content. -/
def fileContent (bytes : ByteArray) : Except FileFault String :=
  match String.fromUTF8? bytes with
  | some content => .ok content
  | none => .error .notText

def failure (activity path text : String) : Result :=
  ⟨1, "", "Error: " ++ activity ++ " '" ++ path ++ "': " ++ text ++ "\n"⟩

/-- Evaluates a file in a new session. -/
def runFile (limit : Nat) (path : String) (content : Except FileFault String) : Option Result :=
  match content with
  | .error fault => some (failure "reading" path fault.text)
  | .ok source =>
    let (ρ, σ) := Store.empty.newGlobal
    match (runSource .empty limit ρ source).run σ with
    | none => none
    | some (.ok v, _) => some ⟨0, v.text ++ "\n", ""⟩
    | some (.error e, _) => some (failure "evaluating" path e.message)

def banner : List String := ["Conslisp " ++ version ++ " REPL", "Ctrl+D to exit."]

def isBlankLine (line : String) : Bool := line.toList.all isWhiteSpace

/-- The line printed for a line that is not blank. -/
def answer (limit : Nat) (ρ : ScopeId) (line : String) : StateT Store Option String := do
  match ← (evalSource .empty limit ρ line).run with
  | .ok v => return v.text
  | .error e => return "Error: " ++ e.message

/-- The lines printed for lines of input, in the session `ρ`. -/
def answers (limit : Nat) (ρ : ScopeId) (lines : List String) : StateT Store Option (List String) :=
  (lines.filter fun line => !isBlankLine line).mapM (answer limit ρ)

/-- All that is printed for lines of input, in a new session. -/
def transcript (limit : Nat) (lines : List String) : Option (List String) :=
  let (ρ, σ) := Store.empty.newGlobal
  ((answers limit ρ lines).run σ).map fun result => banner ++ result.1

/-- The lines of an input. A line ends with a newline, before which a carriage return does not
count; an unfinished last line is a line too. `line` holds what has been seen of the first one,
reversed. -/
def linesAfter (line : List Char) : List Char → List String
  | [] => if line.isEmpty then [] else [String.ofList line.reverse]
  | '\n' :: cs => String.ofList line.reverse :: linesAfter [] cs
  | '\r' :: '\n' :: cs => String.ofList line.reverse :: linesAfter [] cs
  | c :: cs => linesAfter (c :: line) cs

def lines (input : String) : List String := linesAfter [] input.toList

/-- Answers the lines of an input. -/
def runLines (limit : Nat) (input : String) : Option Result :=
  (transcript limit (lines input)).map fun output =>
    ⟨0, String.join (output.map (· ++ "\n")), ""⟩

/-- Runs a command line: its first argument, if there is one, is the path of a file. -/
def run (limit : Nat) (args : List String) (file : String → Except FileFault String)
    (input : String) : Option Result :=
  match args with
  | path :: _ => runFile limit path (file path)
  | [] => runLines limit input

end ScopedLisp.Shell
