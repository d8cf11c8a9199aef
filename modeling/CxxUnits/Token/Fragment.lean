import CxxUnits.Text.Offset
import CxxUnits.Token.Lexer
import CxxUnits.Token.Source

/-!
The source that lexes the fragments it is given. Every fragment is kept under
its number, so that a token can be spelled out again at any later time.
-/
namespace CxxUnits

open Text

/-- The fragments seen so far, numbered from zero. -/
structure Fragments where
  texts : Array String := #[]
  deriving DecidableEq

namespace Fragments

def add (fragments : Fragments) (text : String) : Fragments :=
  ⟨fragments.texts.push text⟩

def text (fragments : Fragments) (number : Nat) : String :=
  fragments.texts[number]?.getD ""

def size (fragments : Fragments) : Nat :=
  fragments.texts.size

def isEmpty (fragments : Fragments) : Bool :=
  fragments.texts.isEmpty

/-- The text of a span of a fragment, empty if the fragment has no such span. -/
def spelling (fragments : Fragments) (number : Nat) (span : Span) : String :=
  (slice? (fragments.text number) span.start span.stop).getD ""

end Fragments

structure FragmentToken extends Token where
  fragment : Nat
  deriving DecidableEq

/-- The tokens of a fragment that matter to its structure: all but the comments. -/
def fragmentTokens (number : Nat) (text : String) : List FragmentToken :=
  ((lex text).filter (·.kind ≠ .comment)).map (⟨·, number⟩)

structure FragmentLexer where
  fragments : Fragments := {}
  /-- The tokens of the current fragment that have not been taken. -/
  pending : List FragmentToken := []
  current : Nat := 0
  deriving DecidableEq

namespace FragmentLexer

def enter (lexer : FragmentLexer) (fragment : String) : FragmentLexer :=
  let number := lexer.fragments.size
  ⟨lexer.fragments.add fragment, fragmentTokens number fragment, number⟩

/-- The end of input stands at the end of the current fragment. -/
def next (lexer : FragmentLexer) : FragmentToken × FragmentLexer :=
  match lexer.pending with
  | [] =>
    let stop := (lexer.fragments.text lexer.current).utf8ByteSize
    (⟨⟨.atEnd, ⟨stop, stop⟩⟩, lexer.current⟩, lexer)
  | token :: rest => (token, { lexer with pending := rest })

def spelling (lexer : FragmentLexer) (token : FragmentToken) : String :=
  lexer.fragments.spelling token.fragment token.span

instance : TokenSource FragmentLexer where
  enter := enter
  next lexer := (lexer.next.1.toLexeme, lexer.next.2)
  remaining lexer := lexer.pending.length
  remaining_next lexer h := by
    unfold next at h ⊢
    split
    · next hs => simp [hs, Lexeme.atEnd] at h
    · next hs => simp [hs]

end FragmentLexer

end CxxUnits
