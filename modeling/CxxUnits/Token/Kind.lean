/-!
The kinds of token that C and C++ source is cut into. Brackets, angles, commas,
semicolons and hashes carry structure; the other kinds only have to be told
apart well enough that a bracket inside a literal or a comment is never taken
for a real one.
-/
namespace CxxUnits

inductive Bracket
  | square
  | brace
  | paren
  deriving DecidableEq

inductive TokenKind
  | opening (bracket : Bracket)
  | closing (bracket : Bracket)
  | less
  | greater
  | greaterGreater
  | comma
  | semicolon
  | hash
  | hashHash
  | identifier
  | number
  | string
  | character
  | comment
  | punctuator
  /-- A character that begins no token, or a raw string with a bad delimiter. -/
  | unknown
  /-- What a reader gets once a text is used up. -/
  | endOfInput
  deriving DecidableEq

/-- Bytes `start` up to but not including `stop` of a text. -/
structure Span where
  start : Nat
  stop : Nat
  deriving DecidableEq

structure Lexeme where
  kind : TokenKind
  text : String
  deriving DecidableEq

structure Token extends Lexeme where
  span : Span
  deriving DecidableEq

def Lexeme.atEnd : Lexeme := ⟨.endOfInput, ""⟩

end CxxUnits
