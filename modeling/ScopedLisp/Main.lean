import ScopedLisp.Shell

open ScopedLisp

/-- No evaluation that fits into memory nests as deeply. -/
def nestingLimit : Nat := Nat.pow 10 9

def readContent (path : String) : IO (Except Shell.FileFault String) := do
  match ← (IO.FS.readBinFile path).toBaseIO with
  | .ok bytes => return Shell.fileContent bytes
  | .error (.inappropriateType ..) => return .error .directory
  | .error _ => return .error .missing

/-- Answers lines until the input ends. -/
partial def converse (input output : IO.FS.Stream) (ρ : ScopeId) (σ : Store) : IO UInt32 := do
  let line ← input.getLine
  if line.isEmpty then return 0
  match (Shell.answers nestingLimit ρ (Shell.lines line)).run σ with
  | some (texts, σ) =>
    texts.forM output.putStrLn
    output.flush
    converse input output ρ σ
  | none => return 1

def main (args : List String) : IO UInt32 := do
  match args with
  | path :: _ =>
    match Shell.runFile nestingLimit path (← readContent path) with
    | some result =>
      IO.print result.stdout
      IO.eprint result.stderr
      return result.exitCode
    | none => return 1
  | [] =>
    Shell.banner.forM IO.println
    let (ρ, σ) := Store.empty.newGlobal
    converse (← IO.getStdin) (← IO.getStdout) ρ σ
