import CxxUnits.Token.Lexer

/-!
What the rule table matches. The match found is the longest of all rules, there is
none only where no rule matches, and it depends on the text through the lengths that
the patterns measure alone. White space begins a gap and nothing else.
-/
namespace CxxUnits

open Text

theorem longestMatch_eq_none_iff {cs : List Char} {rs : List Rule} :
    longestMatch cs rs = none ↔ ∀ rule ∈ rs, rule.pattern.longest cs = 0 := by
  induction rs with
  | nil => simp [longestMatch]
  | cons rule rest ih =>
      cases hrest : longestMatch cs rest with
      | none =>
          simp only [longestMatch, hrest, List.forall_mem_cons]
          rw [← ih]
          simp [hrest]
      | some found =>
          have hpos : ¬∀ rule ∈ rest, rule.pattern.longest cs = 0 := by
            rw [← ih, hrest]
            simp
          simp only [longestMatch, hrest, List.forall_mem_cons]
          by_cases hle : found.2 ≤ rule.pattern.longest cs
          · simp [hle, hpos]
          · simp [hle, hpos]

theorem longest_le_of_longestMatch {cs : List Char} {rs : List Rule} {rule other : Rule}
    {length : Nat} (h : longestMatch cs rs = some (rule, length)) (hother : other ∈ rs) :
    other.pattern.longest cs ≤ length := by
  induction rs generalizing rule length with
  | nil => cases hother
  | cons first rest ih =>
      cases hrest : longestMatch cs rest with
      | none =>
          have hzero := longestMatch_eq_none_iff.1 hrest
          simp only [longestMatch, hrest] at h
          by_cases hfirst : first.pattern.longest cs = 0
          · simp [hfirst] at h
          · rw [if_neg hfirst] at h
            cases h
            cases hother with
            | head => exact Nat.le_refl _
            | tail _ hother => simp [hzero other hother]
      | some found =>
          simp only [longestMatch, hrest] at h
          by_cases hle : found.2 ≤ first.pattern.longest cs
          · rw [if_pos hle] at h
            cases h
            cases hother with
            | head => exact Nat.le_refl _
            | tail _ hother => exact Nat.le_trans (ih hrest hother) hle
          · rw [if_neg hle] at h
            cases h
            cases hother with
            | head => omega
            | tail _ hother => exact ih hrest hother

theorem longestMatch_congr {cs ds : List Char} {rs : List Rule}
    (h : ∀ rule ∈ rs, rule.pattern.longest cs = rule.pattern.longest ds) :
    longestMatch cs rs = longestMatch ds rs := by
  induction rs with
  | nil => rfl
  | cons rule rest ih =>
      have hrest := ih fun other hother => h other (List.mem_cons_of_mem _ hother)
      simp only [longestMatch, h rule List.mem_cons_self, hrest]

theorem firstCut_of_match {cs : List Char} {rule : Rule} {length : Nat}
    (h : longestMatch cs rules = some (rule, length)) : firstCut cs = rule.cut length cs := by
  unfold firstCut
  rw [h]

theorem firstCut_of_no_match {cs : List Char} (h : longestMatch cs rules = none) :
    firstCut cs = ⟨some .unknown, 1⟩ := by
  unfold firstCut
  rw [h]

theorem longestMatch_of_only {cs : List Char} {rs : List Rule} {rule : Rule} (hmem : rule ∈ rs)
    (hpos : rule.pattern.longest cs ≠ 0)
    (honly : ∀ other ∈ rs, other.pattern.longest cs ≠ 0 → other = rule) :
    longestMatch cs rs = some (rule, rule.pattern.longest cs) := by
  cases hmatch : longestMatch cs rs with
  | none => exact absurd (longestMatch_eq_none_iff.1 hmatch rule hmem) hpos
  | some found =>
      obtain ⟨other, length⟩ := found
      obtain ⟨hother, rfl⟩ := longestMatch_mem hmatch
      obtain rfl := honly other hother (Nat.ne_of_gt (longestMatch_pos hmatch))
      rfl

def Pattern.spelling? : Pattern → Option (List Char)
  | spelling text => some text
  | _ => none

def spellings : List (List Char) :=
  rules.filterMap (·.pattern.spelling?)

theorem mem_spellings {rule : Rule} {text : List Char} (h : rule ∈ rules)
    (hpattern : rule.pattern = .spelling text) : text ∈ spellings :=
  List.mem_filterMap.2 ⟨rule, h, by rw [hpattern]; rfl⟩

/-- A spelling has no white space in it but for the line ends of the two splices. -/
theorem gap_of_mem_spellings {text : List Char} (h : text ∈ spellings) :
    (∀ c ∈ text, isGap c = false) ∨ text = ['\\', '\n'] ∨ text = ['\\', '\r', '\n'] := by
  have hany : ∀ text ∈ spellings,
      text.any isGap = false ∨ text = ['\\', '\n'] ∨ text = ['\\', '\r', '\n'] := by
    decide
  simpa using hany text h

theorem head_of_mem_spellings {c : Char} {text : List Char} (h : c :: text ∈ spellings) :
    isGap c = false := by
  have hhead : ∀ text ∈ spellings, text.head?.any isGap = false := by
    decide
  simpa using hhead _ h

theorem eq_splice_of_mem_spellings {text : List Char} (h : '\\' :: text ∈ spellings) :
    text = ['\n'] ∨ text = ['\r', '\n'] := by
  have hhead : ∀ text ∈ spellings, text.head? = some '\\' →
      text.tail = ['\n'] ∨ text.tail = ['\r', '\n'] := by
    decide
  exact hhead _ h rfl

theorem eq_gapRule {rule : Rule} (h : rule ∈ rules) (hpattern : rule.pattern = .gap) :
    rule = ⟨.gap, .skip⟩ := by
  revert rule
  decide

theorem eq_spliceRule {rule : Rule} (h : rule ∈ rules) :
    (rule.pattern = .spelling ['\\', '\n'] → rule = .spelled "\\\n" .skip) ∧
      (rule.pattern = .spelling ['\\', '\r', '\n'] → rule = .spelled "\\\r\n" .skip) := by
  revert rule
  decide

theorem isWordChar_of_isGap {c : Char} (h : isGap c = true) : isWordChar c = false := by
  simp only [isGap, Bool.or_eq_true, beq_iff_eq] at h
  rcases h with ((((rfl | rfl) | rfl) | rfl) | rfl) | rfl <;> rfl

theorem isWordStart_of_isGap {c : Char} (h : isGap c = true) : isWordStart c = false := by
  have hword := isWordChar_of_isGap h
  simp only [isWordChar, isWordStart, Char.isAlphanum, Bool.or_eq_false_iff] at hword ⊢
  exact ⟨hword.1.1, hword.2⟩

theorem isDigit_of_isGap {c : Char} (h : isGap c = true) : c.isDigit = false := by
  have hword := isWordChar_of_isGap h
  simp only [isWordChar, Char.isAlphanum, Bool.or_eq_false_iff] at hword
  exact hword.1.2

theorem eq_cons_of_longest_spelling {text cs : List Char} {c : Char}
    (h : (Pattern.spelling text).longest (c :: cs) ≠ 0) :
    ∃ rest, text = c :: rest ∧ rest <+: cs := by
  by_cases hprefix : text.isPrefixOf (c :: cs) = true
  · cases text with
    | nil => simp [Pattern.longest] at h
    | cons d rest =>
        obtain ⟨rfl, hrest⟩ := List.cons_prefix_cons.1 (List.isPrefixOf_iff_prefix.1 hprefix)
        exact ⟨rest, rfl, hrest⟩
  · simp [Pattern.longest, hprefix] at h

/-- White space at the front of a text is matched by the rule for gaps alone. -/
theorem eq_gapRule_of_longest {c : Char} {cs : List Char} {rule : Rule} (hc : isGap c = true)
    (hmem : rule ∈ rules) (hpos : rule.pattern.longest (c :: cs) ≠ 0) : rule = ⟨.gap, .skip⟩ := by
  cases hpattern : rule.pattern with
  | spelling text =>
      rw [hpattern] at hpos
      obtain ⟨rest, rfl, -⟩ := eq_cons_of_longest_spelling hpos
      rw [head_of_mem_spellings (mem_spellings hmem hpattern)] at hc
      cases hc
  | gap => exact eq_gapRule hmem hpattern
  | word =>
      have hstart := isWordStart_of_isGap hc
      simp [hpattern, Pattern.longest, wordLength, hstart] at hpos
  | number =>
      have hdigit := isDigit_of_isGap hc
      have hpoint : c ≠ '.' := by
        rintro rfl
        cases hc
      simp [hpattern, Pattern.longest, numberLength, plainNumberLength, hdigit, hpoint] at hpos
  | lineComment =>
      have hslash : '/' ≠ c := by
        rintro rfl
        cases hc
      simp [hpattern, Pattern.longest, lineCommentLength, hslash] at hpos

theorem longestMatch_of_isGap {c : Char} (hc : isGap c = true) (cs : List Char) :
    longestMatch (c :: cs) rules =
      some (⟨.gap, .skip⟩, ((c :: cs).takeWhile isGap).length) := by
  have hpos : Pattern.gap.longest (c :: cs) ≠ 0 := by
    simp [Pattern.longest, hc]
  exact longestMatch_of_only (by decide) hpos fun other hmem => eq_gapRule_of_longest hc hmem

theorem firstCut_of_isGap {c : Char} (hc : isGap c = true) (cs : List Char) :
    firstCut (c :: cs) = ⟨none, ((c :: cs).takeWhile isGap).length⟩ := by
  rw [firstCut_of_match (longestMatch_of_isGap hc cs)]
  rfl

/-- A backslash at the front of a text is matched by the two splices alone. -/
theorem splice_of_longest {cs : List Char} {rule : Rule} (hmem : rule ∈ rules)
    (hpos : rule.pattern.longest ('\\' :: cs) ≠ 0) :
    (rule = .spelled "\\\n" .skip ∧ ['\n'] <+: cs) ∨
      (rule = .spelled "\\\r\n" .skip ∧ ['\r', '\n'] <+: cs) := by
  cases hpattern : rule.pattern with
  | spelling text =>
      rw [hpattern] at hpos
      obtain ⟨rest, rfl, hrest⟩ := eq_cons_of_longest_spelling hpos
      cases eq_splice_of_mem_spellings (mem_spellings hmem hpattern) with
      | inl h =>
          subst h
          exact .inl ⟨(eq_spliceRule hmem).1 hpattern, hrest⟩
      | inr h =>
          subst h
          exact .inr ⟨(eq_spliceRule hmem).2 hpattern, hrest⟩
  | gap =>
      have hgap : isGap '\\' = false := rfl
      simp [hpattern, Pattern.longest, hgap] at hpos
  | word =>
      have hstart : isWordStart '\\' = false := rfl
      simp [hpattern, Pattern.longest, wordLength, hstart] at hpos
  | number =>
      have hdigit : '\\'.isDigit = false := rfl
      simp [hpattern, Pattern.longest, numberLength, plainNumberLength, hdigit] at hpos
  | lineComment => simp [hpattern, Pattern.longest, lineCommentLength] at hpos

theorem firstCut_of_only_skip {cs : List Char} {text : String}
    (hmem : Rule.spelled text .skip ∈ rules) (hfront : text.toList <+: cs)
    (hne : text.toList ≠ [])
    (honly : ∀ other ∈ rules, other.pattern.longest cs ≠ 0 → other = .spelled text .skip) :
    firstCut cs = ⟨none, text.toList.length⟩ := by
  have hlength : (Rule.spelled text .skip).pattern.longest cs = text.toList.length :=
    if_pos (List.isPrefixOf_iff_prefix.2 hfront)
  have hpos : (Rule.spelled text .skip).pattern.longest cs ≠ 0 := by
    rw [hlength]
    exact fun hzero => hne (List.length_eq_zero_iff.1 hzero)
  have hmatch := longestMatch_of_only hmem hpos honly
  rw [firstCut_of_match hmatch, hlength]
  rfl

theorem firstCut_splice (cs : List Char) : firstCut ('\\' :: '\n' :: cs) = ⟨none, 2⟩ := by
  have hfront : "\\\n".toList <+: '\\' :: '\n' :: cs := List.prefix_append ['\\', '\n'] cs
  refine firstCut_of_only_skip (by decide) hfront (by decide) ?_
  intro other hmem hpos
  refine (splice_of_longest hmem hpos).elim And.left ?_
  intro hreturn
  simp at hreturn

theorem firstCut_splice_return (cs : List Char) :
    firstCut ('\\' :: '\r' :: '\n' :: cs) = ⟨none, 3⟩ := by
  have hfront : "\\\r\n".toList <+: '\\' :: '\r' :: '\n' :: cs :=
    List.prefix_append ['\\', '\r', '\n'] cs
  refine firstCut_of_only_skip (by decide) hfront (by decide) ?_
  intro other hmem hpos
  refine (splice_of_longest hmem hpos).elim ?_ And.left
  intro hfeed
  simp at hfeed

end CxxUnits
