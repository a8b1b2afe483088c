import BranchTally.Command.Arguments
import BranchTally.Command.Stages

/-! A run of the command on its arguments. Arguments that cannot be understood end the run with an
error before it has begun. -/

namespace BranchTally.Command

def run (files : Files) (arguments : List String) : Outcome :=
  match Options.none.read arguments with
  | .ok o => runOptions files o
  | .error fault => finish .none (.error fault.message) ⟨.start, ""⟩

end BranchTally.Command
