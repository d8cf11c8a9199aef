import CxxUnits.Text.Blank

/-!
The patterns by which a token begins. `Pattern.Matches` is the set of texts a
pattern stands for, none of them empty, and `Pattern.longest` measures the
longest of them that begins a given text.
-/
namespace CxxUnits

open Text

def isWordStart (c : Char) : Bool :=
  c.isAlpha || c == '_'

def isWordChar (c : Char) : Bool :=
  c.isAlphanum || c == '_'

/-- What may follow in a number without more ado; a sign needs an exponent
before it and a separator a word character after it. -/
def isNumberChar (c : Char) : Bool :=
  isWordChar c || c == '.'

/-- An exponent letter and the sign after it. -/
def isSignedExponent (e sign : Char) : Bool :=
  (e == 'e' || e == 'E' || e == 'p' || e == 'P') && (sign == '+' || sign == '-')

/-- A digit separator and the character it leads to. -/
def isSeparated (mark c : Char) : Bool :=
  mark == '\'' && isWordChar c

inductive Pattern
  | spelling (text : List Char)
  /-- A run of the characters that separate tokens. -/
  | gap
  | word
  /-- A digit, with or without a point before it, and all that may follow it. -/
  | number
  /-- Two slashes and the rest of the line. -/
  | lineComment
  deriving DecidableEq

inductive NumberTail : List Char → Prop
  | nil : NumberTail []
  | char {c : Char} {cs : List Char} (hc : isNumberChar c = true) (tail : NumberTail cs) :
      NumberTail (c :: cs)
  | pair {c d : Char} {cs : List Char}
      (hcd : isSignedExponent c d = true ∨ isSeparated c d = true) (tail : NumberTail cs) :
      NumberTail (c :: d :: cs)

def Pattern.Matches : Pattern → List Char → Prop
  | .spelling text, cs => cs = text ∧ cs ≠ []
  | .gap, cs => cs ≠ [] ∧ ∀ c ∈ cs, isGap c = true
  | .word, cs => ∃ c tail, cs = c :: tail ∧ isWordStart c = true ∧ ∀ d ∈ tail, isWordChar d = true
  | .number, cs => ∃ point digit tail, cs = point ++ digit :: tail ∧
      (point = [] ∨ point = ['.']) ∧ digit.isDigit = true ∧ NumberTail tail
  | .lineComment, cs => ∃ tail, cs = '/' :: '/' :: tail ∧ '\n' ∉ tail

/-- The length of the longest `NumberTail` at the front: a sign or a separator
is taken with its neighbour before a single character is tried. -/
def numberTailLength : List Char → Nat
  | [] => 0
  | [c] => if isNumberChar c then 1 else 0
  | c :: d :: cs =>
    if isSignedExponent c d || isSeparated c d then numberTailLength cs + 2
    else if isNumberChar c then numberTailLength (d :: cs) + 1
    else 0

def wordLength : List Char → Nat
  | [] => 0
  | c :: cs => if isWordStart c then (cs.takeWhile isWordChar).length + 1 else 0

def plainNumberLength : List Char → Nat
  | [] => 0
  | d :: cs => if d.isDigit then numberTailLength cs + 1 else 0

def numberLength : List Char → Nat
  | [] => 0
  | c :: cs =>
    if c = '.' then (if plainNumberLength cs = 0 then 0 else plainNumberLength cs + 1)
    else plainNumberLength (c :: cs)

def lineCommentLength (cs : List Char) : Nat :=
  if ['/', '/'].isPrefixOf cs then (cs.takeWhile (· != '\n')).length else 0

/-- The length of the longest text of the pattern that begins `cs`, zero if none does. -/
def Pattern.longest : Pattern → List Char → Nat
  | .spelling text, cs => if text.isPrefixOf cs then text.length else 0
  | .gap, cs => (cs.takeWhile isGap).length
  | .word, cs => wordLength cs
  | .number, cs => numberLength cs
  | .lineComment, cs => lineCommentLength cs

private theorem length_takeWhile_le (p : Char → Bool) (cs : List Char) :
    (cs.takeWhile p).length ≤ cs.length :=
  (List.takeWhile_prefix p).length_le

theorem wordLength_le (cs : List Char) : wordLength cs ≤ cs.length := by
  fun_cases wordLength cs with
  | case2 c cs _ => exact Nat.succ_le_succ (length_takeWhile_le isWordChar cs)
  | _ => simp

theorem numberTailLength_le (cs : List Char) : numberTailLength cs ≤ cs.length := by
  fun_induction numberTailLength cs <;> simp_all

theorem plainNumberLength_le (cs : List Char) : plainNumberLength cs ≤ cs.length := by
  fun_cases plainNumberLength cs with
  | case2 d cs _ => exact Nat.succ_le_succ (numberTailLength_le cs)
  | _ => simp

theorem numberLength_le (cs : List Char) : numberLength cs ≤ cs.length := by
  fun_cases numberLength cs with
  | case3 cs _ => exact Nat.succ_le_succ (plainNumberLength_le cs)
  | case4 c cs _ => exact plainNumberLength_le (c :: cs)
  | _ => simp

theorem lineCommentLength_le (cs : List Char) : lineCommentLength cs ≤ cs.length := by
  unfold lineCommentLength
  split
  · exact length_takeWhile_le (· != '\n') cs
  · exact Nat.zero_le _

theorem Pattern.longest_le (p : Pattern) (cs : List Char) : p.longest cs ≤ cs.length := by
  cases p with
  | spelling text =>
      simp only [longest]
      split
      · next h => exact (List.isPrefixOf_iff_prefix.1 h).length_le
      · exact Nat.zero_le _
  | gap => exact length_takeWhile_le isGap cs
  | word => exact wordLength_le cs
  | number => exact numberLength_le cs
  | lineComment => exact lineCommentLength_le cs

end CxxUnits
