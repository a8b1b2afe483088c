/-! The options of a run, as the command line gives them. -/

namespace BranchTally.Command

structure Options where
  help : Bool
  version : Bool
  quiet : Bool
  verbose : Bool
  extraVerbose : Bool
  exitSuccess : Bool
  runs : Bool
  /-- The file of the decorated tree. -/
  tree : Option String
  /-- The file of the counts; without a name, every tracker has counted zero. -/
  counters : String
  /-- The file of the program text; without a name, nothing is looked past. -/
  source : String
  deriving DecidableEq, Repr

namespace Options

def none : Options := ⟨false, false, false, false, false, false, false, .none, "", ""⟩

/-- What the work is known by: the program text, or else the tree. -/
def unit (o : Options) (treeName : String) : String :=
  if o.source.isEmpty then treeName else o.source

end Options

end BranchTally.Command
