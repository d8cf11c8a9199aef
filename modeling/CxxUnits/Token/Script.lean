import CxxUnits.Token.Source

/-!
A source that reads no text: it plays back lists of lexemes, one list for each
fragment it is given, and counts what has been taken from the current one.
-/
namespace CxxUnits

structure TokenScript where
  queued : List (List Lexeme)
  current : List Lexeme := []
  taken : Nat := 0
  deriving DecidableEq

namespace TokenScript

/-- The next list begins, an empty one when none is left. -/
def enter (s : TokenScript) (_fragment : String) : TokenScript :=
  ⟨s.queued.tail, s.queued.headD [], 0⟩

/-- A list may hold an end of input of its own, which is taken like any other
lexeme; the one at the end of the list is not taken from it. -/
def next (s : TokenScript) : Lexeme × TokenScript :=
  match s.current with
  | [] => (.atEnd, s)
  | lexeme :: rest => (lexeme, { s with current := rest, taken := s.taken + 1 })

instance : TokenSource TokenScript where
  enter := enter
  next := next
  remaining s := s.current.length
  remaining_next s h := by
    unfold next at h ⊢
    split
    · next hs => simp [hs, Lexeme.atEnd] at h
    · next hs => simp [hs]

end TokenScript

end CxxUnits
