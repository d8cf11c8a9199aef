import CxxUnits.Text.Blank
import CxxUnits.Text.Offset
import CxxUnits.Text.Search

/-!
Where literals and block comments end. Each function is given the text after
the opening mark and answers how many of its characters still belong to the
token.
-/
namespace CxxUnits

open Text

/-- Up to and including the first quote that no backslash precedes, or up to
the end of the line if that comes first. A backslash takes the next character
with it, a line feed included. -/
def quotedLength (quote : Char) : List Char → Nat
  | [] => 0
  | ['\\'] => 1
  | '\\' :: _ :: cs => quotedLength quote cs + 2
  | c :: cs =>
    if c = '\n' then 0
    else if c = quote then 1
    else quotedLength quote cs + 1

/-- A raw string's delimiter has at most sixteen bytes and none of the
characters that would end it. -/
def isRawDelimiter (delimiter : List Char) : Bool :=
  byteLength delimiter ≤ 16 &&
    delimiter.all fun c => !(isBlank c || c == '\\' || c == ')' || c == '"')

def rawTerminator (delimiter : List Char) : List Char :=
  ')' :: (delimiter ++ ['"'])

/-- The delimiter, its parenthesis, and the body up to and including the
terminator; nothing if no delimiter stands before the first parenthesis. -/
def rawLength? (cs : List Char) : Option Nat :=
  let delimiter := cs.takeWhile (· != '(')
  match cs.dropWhile (· != '(') with
  | [] => none
  | _ :: body =>
    if isRawDelimiter delimiter then
      some (delimiter.length + 1 + endAfter (rawTerminator delimiter) body)
    else none

/-- Up to and including the first mark that closes a block comment. -/
def blockCommentLength (cs : List Char) : Nat :=
  endAfter ['*', '/'] cs

theorem quotedLength_le (quote : Char) (cs : List Char) :
    quotedLength quote cs ≤ cs.length := by
  fun_induction quotedLength quote cs <;> simp_all

theorem rawLength?_le {cs : List Char} {n : Nat} (h : rawLength? cs = some n) :
    n ≤ cs.length := by
  have hsplit := congrArg List.length (List.takeWhile_append_dropWhile (p := (· != '(')) (l := cs))
  unfold rawLength? at h
  split at h
  · simp at h
  · next paren body hbody =>
    rw [hbody] at hsplit
    simp only [List.length_append, List.length_cons] at h hsplit
    split at h
    · have := endAfter_le (rawTerminator (cs.takeWhile (· != '('))) body
      have := Option.some.inj h
      omega
    · simp at h

theorem blockCommentLength_le (cs : List Char) : blockCommentLength cs ≤ cs.length :=
  endAfter_le _ cs

end CxxUnits
