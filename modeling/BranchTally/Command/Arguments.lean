import BranchTally.Command.Options

/-! The arguments of the command line. An option is a flag or has a value, which is the next argument
or follows the first `=`. Only what leaves no doubt is read: an option that is spelled out, or has a
letter of its own, and is given once, with a value that is not empty and does not look like an option.
A run itself starts from options, wherever they come from. -/

namespace BranchTally.Command

/-- An argument that cannot be understood. -/
inductive UsageFault where
  | unrecognised (argument : String)
  | missingValue (option : String)
  | repeated (option : String)
  deriving DecidableEq, Repr

def UsageFault.message : UsageFault → String
  | .unrecognised argument => "unrecognised option '" ++ argument ++ "'"
  | .missingValue option => "the required argument for option '" ++ option ++ "' is missing"
  | .repeated option => "option '" ++ option ++ "' cannot be specified more than once"

namespace Options

/-- Whether a flag is set, and the options with the flag set, if the argument is one. -/
def flag? (o : Options) : String → Option (Bool × Options)
  | "--help" | "-h" => some (o.help, { o with help := true })
  | "--version" | "-v" => some (o.version, { o with version := true })
  | "--quiet" | "-q" => some (o.quiet, { o with quiet := true })
  | "--verbose" => some (o.verbose, { o with verbose := true })
  | "--extra-verbose" => some (o.extraVerbose, { o with extraVerbose := true })
  | "--exit-success" => some (o.exitSuccess, { o with exitSuccess := true })
  | "--runs" => some (o.runs, { o with runs := true })
  | _ => .none

/-- Whether an option has its value, and the options with this value, if the name is that of one. -/
def valued? (o : Options) (name value : String) : Option (Bool × Options) :=
  match name with
  | "--tree" => some (o.tree.isSome, { o with tree := some value })
  | "--counters" => some (!o.counters.isEmpty, { o with counters := value })
  | "--source" => some (!o.source.isEmpty, { o with source := value })
  | _ => .none

/-- The options with an argument, or two that belong together, taken into account. -/
def take (o : Options) (name : String) (value : Option String) : Except UsageFault Options :=
  match value, o.flag? name, o.valued? name (value.getD "") with
  | .none, some (given, next), _ => if given then .error (.repeated name) else .ok next
  | .none, .none, some _ => .error (.missingValue name)
  | some value, _, some (given, next) =>
    if given then .error (.repeated name)
    else if value.isEmpty || value.startsWith "-" then .error (.missingValue name)
    else .ok next
  | _, _, _ => .error (.unrecognised name)

/-- The name and the value in an argument that holds both. -/
def split (argument : String) : String × String :=
  let cs := argument.toList
  (String.ofList (cs.takeWhile (· ≠ '=')), String.ofList ((cs.dropWhile (· ≠ '=')).drop 1))

/-- The options with all arguments taken into account. -/
def read (o : Options) : List String → Except UsageFault Options
  | [] => .ok o
  | argument :: rest =>
    if argument.contains '=' then do
      let (name, value) := split argument
      read (← o.take name value) rest
    else
      match o.valued? argument "", rest with
      | some _, value :: rest => do read (← o.take argument value) rest
      | _, rest => do read (← o.take argument .none) rest

end Options

end BranchTally.Command
