import CxxUnits.Editing.Keyword
import CxxUnits.Text.Offset
import CxxUnits.Text.WordSet
import CxxUnits.Token.Pattern

/-!
Completing the word at the cursor from the keywords and the words known so far.
-/
namespace CxxUnits.Editing

open Text

structure Completion where
  /-- The byte at which the word to be replaced begins. -/
  start : Nat
  candidates : List String
  deriving DecidableEq

/-- How a candidate is offered: by this text, and to be replaced by that. -/
structure Suggestion where
  display : String
  replacement : String
  deriving DecidableEq

/-- A candidate is shown as what it puts in the place of the word. -/
def Completion.suggestions (completion : Completion) : List Suggestion :=
  completion.candidates.map fun word => ⟨word, word⟩

/-- The word characters at the end of a text. -/
def wordBefore (cs : List Char) : List Char :=
  (cs.reverse.takeWhile isWordChar).reverse

def extendsWord (word : List Char) (candidate : String) : Bool :=
  word.isPrefixOf candidate.toList && candidate.toList ≠ word

structure Vocabulary where
  words : List String := []
  deriving DecidableEq

namespace Vocabulary

/-- Know these words, and no others. -/
def update (_vocabulary : Vocabulary) (words : List String) : Vocabulary := ⟨words⟩

/-- The keywords and known words that extend a word, each once, in increasing order. -/
def candidates (vocabulary : Vocabulary) (word : List Char) : WordSet :=
  .ofList ((keywords ++ vocabulary.words).filter (extendsWord word))

/-- Complete the word that ends at byte `cursor`, if that is a position in the
line. No word, no candidates. -/
def complete? (vocabulary : Vocabulary) (line : String) (cursor : Nat) : Option Completion :=
  (splitAtByte? cursor line.toList).map fun (before, _) =>
    match wordBefore before with
    | [] => ⟨cursor, []⟩
    | word => ⟨cursor - byteLength word, (vocabulary.candidates word).toList⟩

end Vocabulary

/-- Nothing is suggested behind the cursor. -/
def hint? (_line : String) (_cursor : Nat) : Option String := none

def highlightPrompt (prompt : String) : String := prompt

def recolours (_line : String) (_cursor : Nat) : Bool := true

end CxxUnits.Editing
