import CxxUnits.Settings
import CxxUnits.Text.Blank
import CxxUnits.Text.WordSet
import CxxUnits.Token.Lexer
import CxxUnits.Turn

/-!
A session feeds lines to one turn after another. It counts the turns that
closed and gathers the identifiers of the units it handed on.
-/
namespace CxxUnits

open Text

inductive Outcome
  /-- White space outside a turn; nothing happened. -/
  | blank
  | more
  /-- The turn closed as a unit. -/
  | ready (unit : String)
  /-- The turn closed as invalid, and this was its text. -/
  | rejected (text : String)
  deriving DecidableEq

/-- How many lines a text has. A line feed at its end begins no further line. -/
def lineCount (text : String) : Nat :=
  text.toList.count '\n' + if text.toList.getLast?.all (· = '\n') then 0 else 1

/-- What a session has for the log, and how many lines it is about. -/
structure Warning where
  message : String
  lines : Nat
  deriving DecidableEq

/-- The warning about a turn that closed as invalid, and had this text. -/
def Warning.discarded (text : String) : Warning :=
  ⟨"discarding unbalanced input", lineCount text⟩

structure Session (σ : Type) where
  source : σ
  turn : Turn := {}
  identifiers : WordSet := .empty
  accepted : Nat := 0
  rejected : Nat := 0

namespace Session

variable {σ : Type}

def start (source : σ) : Session σ := { source }

def isContinuing (session : Session σ) : Bool :=
  session.turn.verdict = .incomplete

def prompt (session : Session σ) : String :=
  if session.isContinuing then Settings.continuationPrompt else Settings.prompt

/-- Feed one line. A turn that closes is emptied and its text handed back. -/
def feed [TokenSource σ] (session : Session σ) (line : String) :
    Except TurnError (Outcome × Session σ) :=
  if !session.isContinuing && isBlankLine line then .ok (.blank, session)
  else
    let (turn, source) := session.turn.validate session.source line
    let session := { session with turn, source }
    match turn.verdict with
    | .incomplete => .ok (.more, session)
    | .complete =>
      (turn.moveInput "").map fun (unit, turn) =>
        (.ready unit,
          { session with
            turn
            accepted := session.accepted + 1
            identifiers := session.identifiers.insertMany (CxxUnits.identifiers unit) })
    | .invalid | .unknown =>
      (turn.moveInput "").map fun (text, turn) =>
        (.rejected text, { session with turn, rejected := session.rejected + 1 })

def cancel (session : Session σ) : Session σ :=
  { session with turn := session.turn.discard }

/-- End the open turn, if there is one, and hand its text back. -/
def finish (session : Session σ) : Option String × Session σ :=
  if session.isContinuing then
    let (text, turn) := session.turn.takeInput
    (some text, { session with turn })
  else (none, session)

end Session

end CxxUnits
