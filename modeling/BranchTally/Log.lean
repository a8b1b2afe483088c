/-! Diagnostics. Errors and warnings are always shown and counted; the other messages are shown
from a level on. The unit being worked on is named once, before the first message shown after it
has changed. -/

namespace BranchTally

inductive Severity where
  | error | warning | info | debug | trace
  deriving DecidableEq, Repr

structure Message where
  severity : Severity
  text : String
  deriving DecidableEq, Repr

/-- How much is shown. -/
inductive Level where
  | warning | info | debug | trace
  deriving DecidableEq, Repr

namespace Level

def all : List Level := [.warning, .info, .debug, .trace]

def name : Level → String
  | .warning => "Warning"
  | .info => "Info"
  | .debug => "Debug"
  | .trace => "Trace"

def named? (s : String) : Option Level := all.find? (·.name = s)

def rank : Level → Nat
  | .warning => 0
  | .info => 1
  | .debug => 2
  | .trace => 3

/-- Whether messages of this severity are shown. -/
def shows (l : Level) : Severity → Bool
  | .error | .warning => true
  | .info => Level.rank .info ≤ l.rank
  | .debug => Level.rank .debug ≤ l.rank
  | .trace => Level.rank .trace ≤ l.rank

end Level

def Severity.mark : Severity → String
  | .error => "++ ERROR: "
  | .warning => "++ WARNING: "
  | .info | .debug | .trace => "-- "

structure Log where
  level : Level
  /-- The name of the unit being worked on. -/
  unit : String
  /-- Whether the unit is still to be named. -/
  headerDue : Bool
  errors : Nat
  warnings : Nat
  /-- All that has been shown. -/
  written : String
  deriving Repr

namespace Log

def start : Log := ⟨.info, "", false, 0, 0, ""⟩

def setLevel (log : Log) (level : Level) : Log := { log with level := level }

/-- Takes up another unit; the unit already at hand is not taken up again. -/
def setUnit (log : Log) (name : String) : Log :=
  if name = log.unit then log else { log with unit := name, headerDue := true }

def header (log : Log) : String :=
  if log.headerDue then "\nUnit " ++ log.unit ++ "\n" else ""

def count (log : Log) : Severity → Log
  | .error => { log with errors := log.errors + 1 }
  | .warning => { log with warnings := log.warnings + 1 }
  | .info | .debug | .trace => log

def post (log : Log) (m : Message) : Log :=
  if log.level.shows m.severity then
    { log.count m.severity with
      headerDue := false
      written := log.written ++ log.header ++ m.severity.mark ++ m.text ++ "\n" }
  else log

def postAll (log : Log) (ms : List Message) : Log := ms.foldl post log

/-- Whether no error was logged. -/
def succeeded (log : Log) : Bool := log.errors = 0

/-- Ends the work, stating the number of errors if there were any. -/
def close (log : Log) : Log :=
  if log.succeeded then log
  else { log with written := log.written ++ "\n" ++ toString log.errors ++ " Errors occured!\n" }

end Log

end BranchTally
