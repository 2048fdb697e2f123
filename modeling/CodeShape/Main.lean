import CodeShape.Command

/-! The program that looks for a pattern in a file. -/
namespace CodeShape.Command

/-- The reason that a file system gives for a file that cannot be read. -/
def Unreadable.ofError : IO.Error → Unreadable
  | .noFileOrDirectory .. => .missing
  | .permissionDenied .. => .forbidden
  | .inappropriateType .. => .directory
  | _ => .notText

/-- The files that a command names. -/
def paths (c : Command) : List String :=
  (c.code.toList ++ [c.pattern]).filterMap fun
    | .file path => some path
    | .inline _ => none

/-- Reads a file. -/
def load (path : String) : IO (String × Except Unreadable String) := do
  try
    return (path, .ok (← IO.FS.readFile path))
  catch e =>
    return (path, .error (.ofError e))

/-- Reads the files that a command names, runs it and writes its answer. -/
def execute (c : Command) : IO UInt32 := do
  let loaded ← c.paths.mapM load
  let answer := c.run fun path => (loaded.lookup path).getD (.error .missing)
  IO.print answer.stdout
  IO.eprint answer.stderr
  return answer.exit.toUInt32

end CodeShape.Command

def main (words : List String) : IO UInt32 := do
  match CodeShape.Command.ofWords? words with
  | some c => c.execute
  | none =>
    IO.eprintln "usage: [-wev] [--order-matters] (-p PATTERN | --pattern-file PATH) (-c CODE | FILE)"
    return 2
