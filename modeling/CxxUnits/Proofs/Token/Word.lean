import CxxUnits.Proofs.Token.LongestMatch

/-!
What an identifier is made of. The word pattern alone gives identifiers, and an identifier is
the whole of what it matches: a letter or an underscore, and letters, digits and underscores
behind it.
-/
namespace CxxUnits

theorem eq_wordRule {rule : Rule} (h : rule ∈ rules)
    (hkind : rule.action.kind? = some .identifier) : rule = ⟨.word, .emit .identifier⟩ := by
  revert rule
  decide +kernel

/-- What is read as an identifier is the longest word that the text begins with. -/
theorem ReadsAs.of_identifier {cs text : List Char} (h : ReadsAs cs (some .identifier) text) :
    Rule.MatchesLongest ⟨.word, .emit .identifier⟩ text cs := by
  generalize hkind : some TokenKind.identifier = kind? at h
  cases h with
  | @whole rule front body rest hrule hbody =>
      obtain rfl := eq_wordRule hrule.mem hkind.symm
      have hnil : body = [] := List.length_eq_zero_iff.1 (Option.some.inj hbody).symm
      subst hnil
      rwa [List.append_nil]
  | rejected | stray => cases hkind

theorem exists_token_of_mem_identifiers {source word : String} (h : word ∈ identifiers source) :
    ∃ token ∈ lex source, token.kind = .identifier ∧ token.text = word := by
  obtain ⟨token, hmem, htoken⟩ := List.mem_filterMap.1 h
  split at htoken
  · next hkind => exact ⟨token, hmem, hkind, Option.some.inj htoken⟩
  · cases htoken

theorem matches_word_of_mem_identifiers {source word : String} (h : word ∈ identifiers source) :
    Pattern.word.Matches word.toList := by
  obtain ⟨token, hmem, hkind, rfl⟩ := exists_token_of_mem_identifiers h
  obtain ⟨before, rest, -, -, hreads⟩ := (lexesTo_pieces 0 source.toList).exists_front hmem
  rw [hkind] at hreads
  exact hreads.of_identifier.isMatch

theorem isWordChar_of_matches_word {word : List Char} (h : Pattern.word.Matches word) :
    ∀ c ∈ word, isWordChar c = true := by
  obtain ⟨c, tail, rfl, hc, htail⟩ := h
  exact List.forall_mem_cons.2 ⟨isWordChar_of_isWordStart hc, htail⟩

end CxxUnits
