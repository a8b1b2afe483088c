import BranchTally.Command.Run
import BranchTally.Dump.Reader

/-! The command line: reads the files that the options name, and prints what the run wrote. -/

namespace BranchTally.Command

/-- The text of a file, unless it cannot be read. -/
def readText (name : String) : IO (Option String) := do
  try
    return some (← IO.FS.readFile name)
  catch _ =>
    return none

/-- The files that have been read, by their names. -/
def filesOf (contents : List (String × Option String)) : Files :=
  let text (name : String) : Option String := (contents.lookup name).join
  { dump := fun name => (Dump.ofFile (text name)).mapError (·.message name)
    text := text }

/-- The files that the arguments name. -/
def named (arguments : List String) : List String :=
  match Options.none.read arguments with
  | .ok o => o.tree.toList ++ [o.counters, o.source].filter (!·.isEmpty)
  | .error _ => []

end BranchTally.Command

open BranchTally.Command in
def main (arguments : List String) : IO UInt32 := do
  let contents ← (named arguments).mapM fun name => return (name, ← readText name)
  let outcome := run (filesOf contents) arguments
  IO.print outcome.output
  IO.eprint outcome.log
  return outcome.exitCode.toUInt32
