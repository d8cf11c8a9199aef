import CxxUnits.Proofs.Balance.Judgement

/-!
Angles are soft. Two turns whose stacks differ in angles only, given fragments that
differ in angles and semicolons only, come to the same structural verdict and keep
the same openers that are not angles. The final verdicts need not agree: the lexeme
before the end of the fragment may be a comma in one and an angle in the other.
-/
namespace CxxUnits

/-- The kinds whose rules touch no opener but angles. -/
def TokenKind.isSoft : TokenKind → Bool
  | less | greater | greaterGreater | semicolon => true
  | _ => false

/-- The lexemes without those of a soft kind. The name of a directive stays,
whatever its kind. -/
def dropSoft : List Lexeme → List Lexeme
  | [] => []
  | lexeme :: rest =>
    if lexeme.kind = .hash then
      match rest with
      | [] => [lexeme]
      | name :: rest => lexeme :: name :: dropSoft rest
    else if lexeme.kind.isSoft then dropSoft rest
    else lexeme :: dropSoft rest

theorem dropSoft_of_soft {lexeme : Lexeme} (h : lexeme.kind.isSoft = true) (rest : List Lexeme) :
    dropSoft (lexeme :: rest) = dropSoft rest := by
  have hhash : lexeme.kind ≠ .hash := by
    intro heq
    simp [heq, TokenKind.isSoft] at h
  cases rest <;> simp [dropSoft, hhash, h]

theorem dropSoft_of_not_soft {lexeme : Lexeme} (hhash : lexeme.kind ≠ .hash)
    (h : ¬lexeme.kind.isSoft = true) (rest : List Lexeme) :
    dropSoft (lexeme :: rest) = lexeme :: dropSoft rest := by
  cases rest <;> simp [dropSoft, hhash, h]

namespace Item

theorem mark?_token_of_soft {kind : TokenKind} (h : kind.isSoft = true) :
    (token kind).mark? = none := by
  cases kind <;> simp_all [TokenKind.isSoft, mark?]

theorem word_cons (item : Item) (items : List Item) :
    word (item :: items) = item.mark?.toList ++ word items := by
  cases h : item.mark? <;> simp [word, h]

/-- Soft lexemes stand for no mark and part no hash from its name. -/
theorem word_group_dropSoft (lexemes : List Lexeme) :
    word (group (dropSoft lexemes)) = word (group lexemes) := by
  induction lexemes using group.induct with
  | case1 => rfl
  | case2 hash hhash => simp [dropSoft, hhash]
  | case3 hash hhash name rest ih =>
      have hdrop : dropSoft (hash :: name :: rest) = hash :: name :: dropSoft rest := by
        simp [dropSoft, hhash]
      rw [hdrop, group_directive hhash, group_directive hhash, word_cons, word_cons, ih]
  | case4 lexeme rest hlexeme ih =>
      by_cases hsoft : lexeme.kind.isSoft = true
      · rw [dropSoft_of_soft hsoft, ih, group_token hlexeme, word_cons,
          mark?_token_of_soft hsoft]
        rfl
      · rw [dropSoft_of_not_soft hlexeme hsoft, group_token hlexeme, group_token hlexeme,
          word_cons, word_cons, ih]

end Item

namespace Turn

variable {σ τ : Type} [TokenSource σ] [TokenSource τ]

/-- What angles stand on the stack or in the fragment decides neither the structural
verdict nor the openers that are left. -/
theorem angles_are_soft (s t : Turn) (source : σ) (other : τ) (fragment text : String)
    (hstack : s.stack.hard = t.stack.hard)
    (hlexemes : dropSoft (TokenSource.upcoming (TokenSource.enter source fragment)) =
      dropSoft (TokenSource.upcoming (TokenSource.enter other text))) :
    let scan := s.scan source fragment
    let scan' := t.scan other text
    let after := (s.validate source fragment).1
    let after' := (t.validate other text).1
    scan.matched = scan'.matched ∧ scan.structuralVerdict = scan'.structuralVerdict ∧
      scan.stack.hard = scan'.stack.hard ∧ after.stack.hard = after'.stack.hard ∧
      after.depth = after'.depth ∧ after.stack.hasPending = after'.stack.hasPending := by
  intro scan scan' after after'
  have hword : Item.word (items source fragment) = Item.word (items other text) := by
    rw [items, items, ← Item.word_group_dropSoft, hlexemes, Item.word_group_dropSoft]
  have hread : (⟨scan.matched, scan.stack.pairs⟩ : Nesting) =
      ⟨scan'.matched, scan'.stack.pairs⟩ := by
    rw [← nest_scan s source fragment, ← nest_scan t other text, hword,
      BalanceStack.pairs_eq_iff.2 hstack]
  have hmatched : scan.matched = scan'.matched := congrArg Nesting.matched hread
  have hpairs : scan.stack.pairs = scan'.stack.pairs := congrArg Nesting.opened hread
  have hverdict : scan.structuralVerdict = scan'.structuralVerdict := by
    rw [Scan.structuralVerdict_eq, Scan.structuralVerdict_eq, hread]
  have hafter : after.stack.pairs = after'.stack.pairs :=
    (s.extend_pairs fragment scan).trans (hpairs.trans (t.extend_pairs text scan').symm)
  have hhard : after.stack.hard = after'.stack.hard := BalanceStack.pairs_eq_iff.1 hafter
  refine ⟨hmatched, hverdict, BalanceStack.pairs_eq_iff.1 hpairs, hhard, ?_, ?_⟩
  · rw [depth, depth, BalanceStack.pendingSize, BalanceStack.pendingSize, hhard]
  · rw [Bool.eq_iff_iff, BalanceStack.hasPending_iff, BalanceStack.hasPending_iff, hhard]

/-- A brace that closes an angle on its way, an angle named by a directive and angles
below the openers: the closing parenthesis finds the same opener in both. -/
theorem angles_are_soft_below_openers :
    let s : Turn := { stack := ⟨[.angle, .bracket .paren, .angle]⟩ }
    let t : Turn := { stack := ⟨[.bracket .paren]⟩ }
    s.stack.hard = t.stack.hard ∧
      dropSoft (TokenSource.upcoming
          (TokenSource.enter ({} : FragmentLexer) "> a < {1} >> # < ;)")) =
        dropSoft (TokenSource.upcoming
          (TokenSource.enter ({} : FragmentLexer) "a {1} # < )")) ∧
      (s.validate ({} : FragmentLexer) "> a < {1} >> # < ;)").1.depth =
        (t.validate ({} : FragmentLexer) "a {1} # < )").1.depth := by
  intro s t
  have hstack : s.stack.hard = t.stack.hard := by decide
  have hlexemes : dropSoft (TokenSource.upcoming
        (TokenSource.enter ({} : FragmentLexer) "> a < {1} >> # < ;)")) =
      dropSoft (TokenSource.upcoming
        (TokenSource.enter ({} : FragmentLexer) "a {1} # < )")) := by
    decide +kernel
  have hsoft := angles_are_soft s t _ _ _ _ hstack hlexemes
  exact ⟨hstack, hlexemes, hsoft.2.2.2.2.1⟩

end Turn

end CxxUnits
