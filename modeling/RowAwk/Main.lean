import RowAwk.Command.Outcome

/-! The program: reads its arguments and its input file, and prints the outcome. -/

open RowAwk.Command

/-- The bytes of a file up to the end of its first line. -/
partial def readFirstLine (file : IO.FS.Handle) (sofar : List UInt8) : IO (List UInt8) := do
  let bytes := (← file.read 4096).toList
  if bytes.isEmpty || bytes.contains 10 then return sofar ++ bytes
  readFirstLine file (sofar ++ bytes)

/-- The file that the arguments name, as far as it is needed. -/
def readSource (path : String) : IO Files := do
  try
    let bytes ← IO.FS.withFile path .read fun file => readFirstLine file []
    return fun p => if p = path then some bytes else none
  catch _ => return fun _ => none

def main (args : List String) : IO UInt32 := do
  let files ← match Invocation.read args with
    | .ok ⟨_, .file path, _, _⟩ => readSource path
    | _ => pure fun _ => none
  let result := outcome files (← IO.getEnv "TABKIT_LOG_FILTER") args
  IO.print result.stdout
  IO.eprint result.stderr
  return result.exit.toUInt32
