import CxxUnits.Batch.Line
import CxxUnits.Session
import CxxUnits.Token.Fragment

/-!
Running a session over all lines of an input without a terminal. The units go to
the standard output as they are completed; lines that make up none are reported
by number. A line that cannot be read ends the run, and what is on the standard
output by then stays there.

The log shares the error output. It is taken to be off or at the level of warnings,
which is the level it has if no other is asked for. How a warning looks is left open,
since it has the time in it.
-/
namespace CxxUnits.Batch

inductive RunError
  | cannotOpen (path : String) (fault : ReadFault)
  | cannotRead (fault : ReadFault)
  | turn (error : TurnError)
  deriving DecidableEq

def RunError.message : RunError → String
  | cannotOpen path fault => s!"failed to read {path}: {fault.message}"
  | cannotRead fault => s!"I/O error: {fault.message}"
  | turn error => error.message

/-- What a run reports, in order. Lines are numbered from one. -/
inductive Event
  | unit (text : String)
  /-- The lines `first` to `last` made up an invalid turn, of which there is a warning. -/
  | unbalanced (first last : Nat) (warning : Warning)
  /-- The turn begun in line `first` was open at the end. -/
  | incomplete (first : Nat)
  | failed (error : RunError)
  deriving DecidableEq

/-- What is written for a warning that the line of the given number led to. -/
def Log := Nat → Warning → String

def Log.off : Log := fun _ _ => ""

namespace Event

def output (separator : String) : Event → String
  | unit text => text ++ "\n" ++ separator ++ "\n"
  | _ => ""

def message : Event → String
  | unit _ => ""
  | unbalanced first last _ => s!"error: unbalanced input at lines {first}-{last}, discarded\n"
  | incomplete first => s!"error: incomplete input at end of stream (from line {first})\n"
  | failed error => s!"Error: {error.message}\n"

/-- What goes to the error output: the message, after the warning if there is one. -/
def complaint (log : Log) : Event → String
  | unbalanced first last warning =>
    log last warning ++ (unbalanced first last warning).message
  | event => event.message

end Event

/-- The events of a run, and whether every turn was accepted and closed. -/
structure Report where
  events : List Event
  clean : Bool
  deriving DecidableEq

/-- The report with what came of a turn in front of it. -/
def Report.after (first last : Nat) (outcome : Outcome) (report : Report) : Report :=
  match outcome with
  | .blank | .more => report
  | .ready unit => { report with events := .unit unit :: report.events }
  | .rejected text =>
    { report with events := .unbalanced first last (.discarded text) :: report.events }

/-- The run of a session over the lines that are left, the first of them having
the given number. The turn that is open, if one is, began in line `start`. -/
def runFrom {σ : Type} [TokenSource σ] (session : Session σ) (start number : Nat) :
    List (Except ReadFault String) → Report
  | [] =>
    match session.finish with
    | (none, session) => ⟨[], session.rejected = 0⟩
    | (some _, _) => ⟨[.incomplete start], false⟩
  | .error fault :: _ => ⟨[.failed (.cannotRead fault)], false⟩
  | .ok line :: rest =>
    let start := if session.isContinuing then start else number
    match session.feed line with
    | .error error => ⟨[.failed (.turn error)], false⟩
    | .ok (outcome, session) =>
      (runFrom session start (number + 1) rest).after start number outcome

structure Answer where
  stdout : String
  stderr : String
  exitCode : UInt32
  deriving DecidableEq

def Report.answer (report : Report) (separator : String) (log : Log := .off) : Answer where
  stdout := String.join (report.events.map (Event.output separator))
  stderr := String.join (report.events.map (Event.complaint log))
  exitCode := if report.clean then 0 else 1

/-- The report on an input, which is its lines unless it could not be opened. -/
def report : Except RunError (List (Except ReadFault String)) → Report
  | .error error => ⟨[.failed error], false⟩
  | .ok lines => runFrom (Session.start ({} : FragmentLexer)) 1 1 lines

def run (log : Log) (separator : String) (bytes : List UInt8) : Answer :=
  (report (.ok (linesOf bytes))).answer separator log

end CxxUnits.Batch
