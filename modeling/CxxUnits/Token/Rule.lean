import CxxUnits.Token.Kind
import CxxUnits.Token.Literal
import CxxUnits.Token.Pattern

/-!
The table the lexer is read from. A rule pairs the pattern by which a token
begins with what becomes of the match.
-/
namespace CxxUnits

/-- What becomes of a match: it is skipped, it is a token as it stands, or it
opens a literal or a comment whose body still follows. -/
inductive Action
  | skip
  | emit (kind : TokenKind)
  | quoted (quote : Char) (kind : TokenKind)
  | rawString
  | blockComment
  deriving DecidableEq

def Action.kind? : Action → Option TokenKind
  | .skip => none
  | .emit kind => some kind
  | .quoted _ kind => some kind
  | .rawString => some .string
  | .blockComment => some .comment

/-- How much of the text after the match belongs to it, if the body is well formed. -/
def Action.bodyLength? : Action → List Char → Option Nat
  | .skip, _ => some 0
  | .emit _, _ => some 0
  | .quoted quote _, cs => some (quotedLength quote cs)
  | .rawString, cs => rawLength? cs
  | .blockComment, cs => some (blockCommentLength cs)

structure Rule where
  pattern : Pattern
  action : Action
  deriving DecidableEq

def Rule.spelled (text : String) (action : Action) : Rule :=
  ⟨.spelling text.toList, action⟩

def encodings : List String := ["", "u8", "u", "U", "L"]

def structureRules : List Rule :=
  [.spelled "[" (.emit (.opening .square)),
   .spelled "]" (.emit (.closing .square)),
   .spelled "\x7b" (.emit (.opening .brace)),
   .spelled "\x7d" (.emit (.closing .brace)),
   .spelled "(" (.emit (.opening .paren)),
   .spelled ")" (.emit (.closing .paren)),
   .spelled "<" (.emit .less),
   .spelled ">" (.emit .greater),
   .spelled ">>" (.emit .greaterGreater),
   .spelled "," (.emit .comma),
   .spelled ";" (.emit .semicolon),
   .spelled "#" (.emit .hash),
   .spelled "##" (.emit .hashHash)]

/-- The punctuators that hold an angle are here so that the angle does not count. -/
def punctuators : List String :=
  ["<<", "<<=", "<=", "<=>", ">=", ">>=", "->", "->*",
   "-", "+", "*", "/", "%", "&", "|", "^", "!", "~", "=", "?", ":", "."]

def literalRules : List Rule :=
  encodings.flatMap fun encoding =>
    [.spelled (encoding ++ "\"") (.quoted '"' .string),
     .spelled (encoding ++ "R\"") .rawString,
     .spelled (encoding ++ "'") (.quoted '\'' .character)]

/-- A backslash at the end of a line joins the next line to it and separates tokens. -/
def gapRules : List Rule :=
  [⟨.gap, .skip⟩, .spelled "\\\n" .skip, .spelled "\\\r\n" .skip]

def rules : List Rule :=
  structureRules ++ punctuators.map (Rule.spelled · (.emit .punctuator)) ++ literalRules ++
    [⟨.word, .emit .identifier⟩,
     ⟨.number, .emit .number⟩,
     ⟨.lineComment, .emit .comment⟩,
     .spelled "/*" .blockComment] ++
    gapRules

theorem Action.bodyLength?_le {a : Action} {cs : List Char} {n : Nat}
    (h : a.bodyLength? cs = some n) : n ≤ cs.length := by
  cases a with
  | skip | emit =>
      obtain rfl := Option.some.inj h
      exact Nat.zero_le _
  | quoted quote kind =>
      obtain rfl := Option.some.inj h
      exact quotedLength_le quote cs
  | rawString => exact rawLength?_le h
  | blockComment =>
      obtain rfl := Option.some.inj h
      exact blockCommentLength_le cs

theorem kind?_ne_endOfInput {r : Rule} (h : r ∈ rules) :
    r.action.kind? ≠ some .endOfInput := by
  revert r
  decide

end CxxUnits
