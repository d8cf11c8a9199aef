import CxxUnits.Token.Kind

/-!
Where lexemes come from. A source is given one fragment of text at a time and
hands out its lexemes one by one, comments left out, with an end of input once
the fragment is used up. Nothing else is asked of it, except that it cannot go
on for ever before the end of input.
-/
namespace CxxUnits

class TokenSource (σ : Type) where
  /-- Begin with a new fragment; what is left of the one before is dropped. -/
  enter : σ → String → σ
  next : σ → Lexeme × σ
  /-- A bound on how many lexemes come before the end of input. -/
  remaining : σ → Nat
  remaining_next : ∀ s, (next s).1.kind ≠ .endOfInput → remaining (next s).2 < remaining s

namespace TokenSource

variable {σ : Type} [TokenSource σ]

def upcoming (s : σ) : List Lexeme :=
  let step := next s
  if h : step.1.kind = .endOfInput then []
  else
    have := remaining_next s h
    step.1 :: upcoming step.2
termination_by remaining s

def advance : Nat → σ → σ
  | 0, s => s
  | n + 1, s => advance n (next s).2

theorem upcoming_of_end {s : σ} (h : (next s).1.kind = .endOfInput) : upcoming s = [] := by
  rw [upcoming]
  exact dif_pos h

theorem upcoming_of_not_end {s : σ} (h : (next s).1.kind ≠ .endOfInput) :
    upcoming s = (next s).1 :: upcoming (next s).2 := by
  rw [upcoming]
  exact dif_neg h

@[simp] theorem advance_zero (s : σ) : advance 0 s = s := rfl

end TokenSource

end CxxUnits
