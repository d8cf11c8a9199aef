import CxxUnits.Token.Pattern

/-!
`Pattern.longest` measures what it says: the text of that length is in the
pattern, and no text of the pattern that begins the same input is longer. What
stands in a number is taken in pairs first, and that loses nothing, because
whatever may follow a single character may follow a pair.
-/
namespace CxxUnits

open Text

private theorem prefix_takeWhile {p : Char → Bool} {t cs : List Char} (ht : t <+: cs)
    (hp : ∀ c ∈ t, p c = true) : t <+: cs.takeWhile p := by
  obtain ⟨rest, rfl⟩ := ht
  rw [List.takeWhile_append_of_pos hp]
  exact List.prefix_append t _

private theorem take_length_takeWhile (p : Char → Bool) (cs : List Char) :
    cs.take (cs.takeWhile p).length = cs.takeWhile p :=
  (List.prefix_iff_eq_take.1 (List.takeWhile_prefix p)).symm

private theorem of_mem_takeWhile {p : Char → Bool} {c : Char} {cs : List Char}
    (h : c ∈ cs.takeWhile p) : p c = true :=
  List.all_eq_true.1 List.all_takeWhile c h

theorem numberTail_take (cs : List Char) : NumberTail (cs.take (numberTailLength cs)) := by
  fun_induction numberTailLength cs with
  | case1 => exact .nil
  | case2 c hc => exact .char hc .nil
  | case3 => exact .nil
  | case4 c d cs hcd ih => exact .pair (by simpa using hcd) ih
  | case5 c d cs _ hc ih => exact .char hc ih
  | case6 => exact .nil

private theorem eq_nil_of_sign {e sign : Char} {t cs : List Char}
    (he : isSignedExponent e sign = true) (h : NumberTail t) (ht : t <+: sign :: cs) : t = [] := by
  have hsign : sign = '+' ∨ sign = '-' := by
    simp only [isSignedExponent, Bool.and_eq_true, Bool.or_eq_true, beq_iff_eq] at he
    exact he.2
  cases h with
  | nil => rfl
  | char hc tail =>
      obtain ⟨rfl, -⟩ := List.cons_prefix_cons.1 ht
      rcases hsign with rfl | rfl <;> exact absurd hc (by decide)
  | pair hcd tail =>
      obtain ⟨rfl, -⟩ := List.cons_prefix_cons.1 ht
      rcases hsign with rfl | rfl <;> simp [isSignedExponent, isSeparated] at hcd

theorem length_le_numberTailLength {t cs : List Char} (h : NumberTail t) (ht : t <+: cs) :
    t.length ≤ numberTailLength cs := by
  fun_induction numberTailLength cs generalizing t with
  | case1 => simp [List.prefix_nil.1 ht]
  | case2 c hc =>
      have := ht.length_le
      simpa using this
  | case3 c hc =>
      cases h with
      | nil => simp
      | char hd tail =>
          obtain ⟨rfl, -⟩ := List.cons_prefix_cons.1 ht
          exact absurd hd hc
      | pair hde tail => simpa using ht.length_le
  | case4 c d cs hcd ih =>
      cases h with
      | nil => simp
      | char hc tail =>
          obtain ⟨rfl, htail⟩ := List.cons_prefix_cons.1 ht
          rcases Bool.or_eq_true_iff.1 hcd with he | hs
          · simp [eq_nil_of_sign he tail htail]
          · simp only [isSeparated, Bool.and_eq_true, beq_iff_eq] at hs
            exact absurd (hs.1 ▸ hc) (by decide)
      | pair _ tail =>
          obtain ⟨rfl, htail⟩ := List.cons_prefix_cons.1 ht
          exact Nat.add_le_add_right (ih tail (List.cons_prefix_cons.1 htail).2) 2
  | case5 c d cs hcd hc ih =>
      cases h with
      | nil => simp
      | char _ tail =>
          obtain ⟨rfl, htail⟩ := List.cons_prefix_cons.1 ht
          exact Nat.add_le_add_right (ih tail htail) 1
      | pair hpair tail =>
          obtain ⟨rfl, htail⟩ := List.cons_prefix_cons.1 ht
          obtain ⟨rfl, -⟩ := List.cons_prefix_cons.1 htail
          exact absurd (Bool.or_eq_true_iff.2 hpair) hcd
  | case6 c d cs hcd hc =>
      cases h with
      | nil => simp
      | char hc' tail =>
          obtain ⟨rfl, -⟩ := List.cons_prefix_cons.1 ht
          exact absurd hc' hc
      | pair hpair tail =>
          obtain ⟨rfl, htail⟩ := List.cons_prefix_cons.1 ht
          obtain ⟨rfl, -⟩ := List.cons_prefix_cons.1 htail
          exact absurd (Bool.or_eq_true_iff.2 hpair) hcd

private theorem matches_number {point tail : List Char} {digit : Char}
    (hpoint : point = [] ∨ point = ['.']) (hd : digit.isDigit = true) (h : NumberTail tail) :
    Pattern.number.Matches (point ++ digit :: tail) :=
  ⟨point, digit, tail, rfl, hpoint, hd, h⟩

private theorem matches_take_numberLength {cs : List Char} (h : numberLength cs ≠ 0) :
    Pattern.number.Matches (cs.take (numberLength cs)) := by
  have plain : ∀ ds : List Char, plainNumberLength ds ≠ 0 →
      ∃ digit tail, ds.take (plainNumberLength ds) = digit :: tail ∧
        digit.isDigit = true ∧ NumberTail tail := by
    intro ds hds
    fun_cases plainNumberLength ds with
    | case1 => simp [plainNumberLength] at hds
    | case2 d ds hd => exact ⟨d, _, by simp, hd, numberTail_take ds⟩
    | case3 d ds hd => simp [plainNumberLength, hd] at hds
  fun_cases numberLength cs with
  | case1 => simp [numberLength] at h
  | case2 cs hzero => simp [numberLength, hzero] at h
  | case3 cs hpos =>
      obtain ⟨digit, tail, htake, hd, htail⟩ := plain cs hpos
      rw [List.take_succ_cons, htake]
      exact matches_number (.inr rfl) hd htail
  | case4 c cs hc =>
      simp only [numberLength, hc, if_false] at h
      obtain ⟨digit, tail, htake, hd, htail⟩ := plain (c :: cs) h
      rw [htake]
      exact matches_number (.inl rfl) hd htail

/-- The text that is measured is in the pattern. -/
theorem Pattern.matches_take_longest {p : Pattern} {cs : List Char} (h : p.longest cs ≠ 0) :
    p.Matches (cs.take (p.longest cs)) := by
  cases p with
  | spelling text =>
      simp only [longest] at h ⊢
      split at h
      · next hprefix =>
        rw [if_pos hprefix, ← List.prefix_iff_eq_take.1 (List.isPrefixOf_iff_prefix.1 hprefix)]
        exact ⟨rfl, fun hnil => h (by simp [hnil])⟩
      · exact absurd rfl h
  | gap =>
      simp only [longest] at h ⊢
      rw [take_length_takeWhile]
      exact ⟨fun hnil => h (by simp [hnil]), fun c hc => of_mem_takeWhile hc⟩
  | word =>
      simp only [longest] at h ⊢
      fun_cases wordLength cs with
      | case1 => simp [wordLength] at h
      | case2 c cs hc =>
          rw [List.take_succ_cons, take_length_takeWhile]
          exact ⟨c, _, rfl, hc, fun d hd => of_mem_takeWhile hd⟩
      | case3 c cs hc => simp [wordLength, hc] at h
  | number => exact matches_take_numberLength h
  | lineComment =>
      simp only [longest, lineCommentLength] at h ⊢
      split at h
      · next hprefix =>
        obtain ⟨tail, rfl⟩ := List.isPrefixOf_iff_prefix.1 hprefix
        rw [if_pos hprefix, take_length_takeWhile]
        refine ⟨tail.takeWhile (· != '\n'), by simp, fun hmem => ?_⟩
        simpa using of_mem_takeWhile hmem
      · exact absurd rfl h

/-- No text of the pattern is longer. -/
theorem Pattern.length_le_longest {p : Pattern} {t cs : List Char} (h : p.Matches t)
    (ht : t <+: cs) : t.length ≤ p.longest cs := by
  cases p with
  | spelling text =>
      obtain ⟨rfl, -⟩ := h
      simp [longest, List.isPrefixOf_iff_prefix.2 ht]
  | gap => exact (prefix_takeWhile ht h.2).length_le
  | word =>
      obtain ⟨c, tail, rfl, hc, htail⟩ := h
      obtain ⟨rest, rfl⟩ := ht
      simp only [longest, List.cons_append, wordLength, hc, if_true, List.length_cons]
      exact Nat.succ_le_succ (prefix_takeWhile (List.prefix_append tail rest) htail).length_le
  | number =>
      obtain ⟨point, digit, tail, rfl, hpoint, hd, htail⟩ := h
      obtain ⟨rest, rfl⟩ := ht
      have hlen := length_le_numberTailLength htail (List.prefix_append tail rest)
      have hplain : plainNumberLength (digit :: (tail ++ rest)) =
          numberTailLength (tail ++ rest) + 1 := by simp [plainNumberLength, hd]
      rcases hpoint with rfl | rfl
      · have hne : digit ≠ '.' := by rintro rfl; exact absurd hd (by decide)
        simp only [longest, List.nil_append, List.cons_append, numberLength, if_neg hne, hplain,
          List.length_cons]
        omega
      · simp only [longest, List.cons_append, List.nil_append, numberLength, if_true, hplain,
          List.length_cons]
        split <;> omega
  | lineComment =>
      obtain ⟨tail, rfl, htail⟩ := h
      obtain ⟨rest, rfl⟩ := ht
      simp only [longest, lineCommentLength]
      rw [if_pos (by simp)]
      refine (prefix_takeWhile (List.prefix_append _ rest) fun c hc => ?_).length_le
      rcases List.mem_cons.1 hc with rfl | hc
      · decide
      · rcases List.mem_cons.1 hc with rfl | hc
        · decide
        · simpa using fun heq : c = '\n' => htail (heq ▸ hc)

end CxxUnits
