import BranchTally.Report.Survey
import BranchTally.Command.Options
import BranchTally.Counters.Reader
import BranchTally.Dump.Layout
import BranchTally.Runs.Listing

/-! A run of the command, as a function of its options and of the files that it may read. The
stages are: to load the tree, the counters and the source; to report; and, if asked for, to list
the runs and to warn of partial coverage. A stage writes its output only once it has succeeded, and
the first that fails ends the run with an error. -/

namespace BranchTally.Command

open BranchTally.Flow

/-- What a run can read. -/
structure Files where
  /-- The dump in a file, or what is wrong with it. -/
  dump : String → Except String Dump
  /-- The text of a file, if it can be read. -/
  text : String → Option String

structure Outcome where
  exitCode : Nat
  output : String
  /-- What was logged. -/
  log : String
  deriving DecidableEq, Repr

/-- What a run has written so far. -/
structure Desk where
  log : Log
  output : String

/-- A stage, which may fail with an error to be logged. -/
abbrev Stage := ExceptT String (StateM Desk)

def say (ms : List Message) : Stage Unit := modify fun d => { d with log := d.log.postAll ms }

def write (text : String) : Stage Unit := modify fun d => { d with output := d.output ++ text }

/-! ### The stages -/

def loadTree (files : Files) (name : String) : Stage Tree := do
  let dump ← files.dump name
  let (messages, tree) := dump.load name
  say messages
  match tree with
  | .ok t => return t
  | .error fault => throw (fault.message name)

/-- Without a name there is nothing to load, and no tracker has counted. -/
def loadCounters (files : Files) (name : String) : Stage Counters :=
  if name.isEmpty then return .empty
  else
    match Counters.ofFile (files.text name) with
    | .ok c => do
      say [c.announcement name]
      return c
    | .error fault => throw (fault.message name)

/-- Without a name there is nothing to load, and no text. -/
def loadSource (files : Files) (name : String) : Stage Source :=
  if name.isEmpty then return .ofText ""
  else
    match files.text name with
    | some text => do
      let s := Source.ofText text
      say [s.announcement name]
      return s
    | none => throw (Source.unreadable name)

/-- Writes the report, and gives the counts remembered on the way. -/
def reportStage (e : Evidence) (source : Source) : Stage Memory := do
  let survey := Report.build e source e.memory
  say survey.notes
  match survey.result with
  | .ok records => do
    write (Report.text records ++ "\n")
    return survey.memory
  | .error fault => throw fault.message

/-- What a derivation finds. -/
def find {α : Type} : Except Fault α → Stage α
  | .ok a => return a
  | .error fault => throw fault.message

/-- Writes the runs of all branching constructs and the warnings of partial coverage. -/
def runsStage (e : Evidence) (unit : String) (m : Memory) : Stage Unit := do
  let (raw, m) := e.resume (Runs.raw e.tree) m
  let raw ← find raw
  let demoted ← find (e.resume (Runs.demote e raw) m).1
  let listing := Runs.list e.tree raw demoted
  write listing.text
  find listing.result
  let warnings := Runs.warn e.tree unit raw demoted
  write warnings.text
  say [Runs.announcement (← find warnings.result)]

/-- The stages of a run on a tree. -/
def stages (files : Files) (o : Options) (treeName : String) : Stage Unit := do
  let tree ← loadTree files treeName
  let counters ← loadCounters files o.counters
  let source ← loadSource files o.source
  let e : Evidence := ⟨tree, counters, .word⟩
  let m ← reportStage e source
  if o.runs then runsStage e (o.unit treeName) m

/-! ### The run -/

def versionText : String := "branchcov 0.1\n"

def helpText : String :=
  "Allowed options:\n" ++
  "  --help           produce help message\n" ++
  "  --version        print version string\n" ++
  "  --quiet          be quiet\n" ++
  "  --verbose        be verbose\n" ++
  "  --extra-verbose  be even more verbose\n" ++
  "  --exit-success   exit with 0, even if errors occured\n" ++
  "  --tree FILENAME  decorated syntax tree of the unit\n" ++
  "  --counters FILENAME\n" ++
  "                   tracker hit counts, one 'id count' pair per line\n" ++
  "  --source FILENAME\n" ++
  "                   source text of the unit\n" ++
  "  --runs           print raw and demoted run counts of every branching construct\n"

/-- How much is shown; the most talkative option wins. -/
def Options.level (o : Options) : Level :=
  if o.extraVerbose then .trace
  else if o.verbose then .debug
  else if o.quiet then .warning
  else .info

/-- Ends a run: an error is logged, and fails the run unless it is told to succeed. -/
def finish (o : Options) (result : Except String Unit) (d : Desk) : Outcome :=
  match result with
  | .ok () =>
    let failed := !d.log.succeeded && !o.exitSuccess
    ⟨failed.toNat, d.output, d.log.close.written⟩
  | .error text =>
    ⟨(!o.exitSuccess).toNat, d.output, (d.log.post ⟨.error, text ++ "\n"⟩).written⟩

/-- A run with the options given. -/
def runOptions (files : Files) (o : Options) : Outcome :=
  if o.help then ⟨0, helpText, ""⟩
  else if o.version then ⟨0, versionText, ""⟩
  else
    let log := Log.start.setLevel o.level
    match o.tree with
    | none => finish o (.error "the option '--tree' is required but missing") ⟨log, ""⟩
    | some name =>
      let (result, d) := (stages files o name).run.run ⟨log.setUnit name, ""⟩
      finish o result d

end BranchTally.Command
