import CxxUnits.Balance.Scan
import CxxUnits.Token.Source

/-!
A turn collects fragments of text until they make up a unit. It holds the text
so far, the openers that wait for their closers, and the verdict on the latest
fragment; ending it, by whatever way, leaves an empty turn.
-/
namespace CxxUnits

structure Turn where
  /-- The fragments so far, one below the other. -/
  input : String := ""
  stack : BalanceStack := {}
  verdict : Verdict := .complete
  deriving DecidableEq

inductive TurnError
  /-- A text was to be moved to a place that already holds one of `bytes` bytes. -/
  | nonEmptyDestination (bytes : Nat)
  deriving DecidableEq

def TurnError.message : TurnError → String
  | nonEmptyDestination bytes =>
    s!"reset destination must be empty, it already holds {bytes} bytes"

namespace Turn

def empty : Turn := {}

def joinInput (input fragment : String) : String :=
  if input = "" then fragment else input ++ "\n" ++ fragment

/-- The turn after a scan of one more fragment. The fragment is kept whatever
the verdict, and angles alone are not. -/
def extend (turn : Turn) (fragment : String) (scan : Scan) : Turn where
  input := joinInput turn.input fragment
  stack := if scan.stack.hasPending then scan.stack else .empty
  verdict := scan.verdict

/-- Judge a fragment together with all that the turn holds already. -/
def validate {σ : Type} [TokenSource σ] (turn : Turn) (source : σ) (fragment : String) :
    Turn × σ :=
  let source := TokenSource.enter source fragment
  let scan := Scan.run turn.stack none (Item.group (TokenSource.upcoming source))
  (turn.extend fragment scan, TokenSource.advance scan.taken source)

def discard (_turn : Turn) : Turn := empty

def takeInput (turn : Turn) : String × Turn :=
  (turn.input, turn.discard)

/-- End the turn and move its text to a destination, which must be empty. -/
def moveInput (turn : Turn) (destination : String) : Except TurnError (String × Turn) :=
  if destination = "" then .ok (turn.input, turn.discard)
  else .error (.nonEmptyDestination destination.utf8ByteSize)

/-- End the turn, moving its text to a destination if there is one. -/
def reset (turn : Turn) : Option String → Except TurnError (Option String × Turn)
  | none => .ok (none, turn.discard)
  | some destination => (turn.moveInput destination).map fun (text, turn) => (some text, turn)

/-- How many openers wait for their closers, angles not counted. -/
def depth (turn : Turn) : Nat :=
  turn.stack.pendingSize

end Turn

end CxxUnits
