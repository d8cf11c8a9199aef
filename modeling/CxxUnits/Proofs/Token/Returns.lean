import CxxUnits.Proofs.Token.Quoted

/-!
Carriage returns before line feeds. With one put before each line feed of a text, what begins a
token is matched as before, line comments apart, and a body goes as far as before. A body that
ends with its line takes the carriage return along. A backslash before a line feed is another
matter: it makes a splice with both characters, but in a literal it takes the first alone.
-/
namespace CxxUnits

open Text

/-- The text with a carriage return before each line feed. -/
def withReturns (cs : List Char) : List Char :=
  cs.flatMap fun c => if c = '\n' then ['\r', '\n'] else [c]

@[simp] theorem withReturns_nil : withReturns [] = [] := rfl

@[simp] theorem withReturns_newline (cs : List Char) :
    withReturns ('\n' :: cs) = '\r' :: '\n' :: withReturns cs := rfl

theorem withReturns_cons {c : Char} (hc : c ≠ '\n') (cs : List Char) :
    withReturns (c :: cs) = c :: withReturns cs := by
  simp [withReturns, hc]

@[simp] theorem withReturns_append (cs ds : List Char) :
    withReturns (cs ++ ds) = withReturns cs ++ withReturns ds :=
  List.flatMap_append

theorem withReturns_of_no_newline {cs : List Char} (h : '\n' ∉ cs) : withReturns cs = cs := by
  induction cs with
  | nil => rfl
  | cons c cs ih =>
      obtain ⟨hc, hcs⟩ := List.ne_and_not_mem_of_not_mem_cons h
      rw [withReturns_cons hc.symm, ih hcs]

/-- What one token leaves of a text and of the text with carriage returns. A token that ends
with its line takes the carriage return along. -/
inductive Behind : List Char → List Char → Prop
  | same (rest : List Char) : Behind rest (withReturns rest)
  | inLineEnd (rest : List Char) : Behind ('\n' :: rest) ('\n' :: withReturns rest)

theorem Behind.lexemes_eq {rest rest' : List Char} (h : Behind rest rest') :
    lexemes rest' = lexemes (withReturns rest) := by
  cases h with
  | same => rfl
  | inLineEnd rest =>
      have hgap : ∀ c ∈ ['\r'], isGap c = true := List.forall_mem_singleton.2 rfl
      exact (lexemes_append_of_gap hgap _).symm

theorem isPrefixOf_cons_of_not_mem {c : Char} {mark : List Char} (hne : mark ≠ [])
    (hc : c ∉ mark) (cs : List Char) : mark.isPrefixOf (c :: cs) = false := by
  cases mark with
  | nil => contradiction
  | cons m mark =>
      have hm : m ≠ c := fun h => hc (h ▸ List.mem_cons_self)
      simp [List.isPrefixOf, hm]

theorem isPrefixOf_withReturns {mark : List Char} (hfeed : '\n' ∉ mark) (hreturn : '\r' ∉ mark)
    (cs : List Char) : mark.isPrefixOf (withReturns cs) = mark.isPrefixOf cs := by
  induction cs generalizing mark with
  | nil => rfl
  | cons c cs ih =>
      by_cases hne : mark = []
      · rw [hne]
        rfl
      · by_cases hc : c = '\n'
        · subst hc
          rw [withReturns_newline, isPrefixOf_cons_of_not_mem hne hreturn,
            isPrefixOf_cons_of_not_mem hne hfeed]
        · obtain ⟨m, mark, rfl⟩ := List.exists_cons_of_ne_nil hne
          rw [withReturns_cons hc, List.isPrefixOf, List.isPrefixOf,
            ih (List.not_mem_of_not_mem_cons hfeed) (List.not_mem_of_not_mem_cons hreturn)]

/-- A mark without line ends is found where it was. -/
theorem endAfter_withReturns {mark : List Char} (hne : mark ≠ []) (hfeed : '\n' ∉ mark)
    (hreturn : '\r' ∉ mark) (cs : List Char) :
    endAfter mark (withReturns cs) = (withReturns (cs.take (endAfter mark cs))).length := by
  induction cs with
  | nil => rfl
  | cons c cs ih =>
      by_cases hc : c = '\n'
      · subst hc
        simp only [withReturns_newline, endAfter, isPrefixOf_cons_of_not_mem hne hfeed,
          isPrefixOf_cons_of_not_mem hne hreturn, ih]
        simp
      · have hfront := isPrefixOf_withReturns hfeed hreturn (c :: cs)
        rw [withReturns_cons hc] at hfront ⊢
        rw [endAfter, endAfter, hfront]
        cases hmark : mark.isPrefixOf (c :: cs) with
        | true =>
            have htake := List.prefix_iff_eq_take.1 (List.isPrefixOf_iff_prefix.1 hmark)
            rw [if_pos rfl, if_pos rfl, ← htake, withReturns_of_no_newline hfeed]
        | false => simp [withReturns_cons hc, ih]

theorem isRawDelimiter_withReturns (delimiter : List Char) :
    isRawDelimiter (withReturns delimiter) = isRawDelimiter delimiter := by
  by_cases hfeed : '\n' ∈ delimiter
  · have hbroken : ∀ cs : List Char, '\n' ∈ cs → isRawDelimiter cs = false := by
      intro cs hmem
      rw [Bool.eq_false_iff]
      exact fun hraw => gap_not_mem_delimiter rfl hraw hmem
    have hfeed' : '\n' ∈ withReturns delimiter :=
      List.mem_flatMap.2 ⟨'\n', hfeed, by decide⟩
    rw [hbroken _ hfeed, hbroken _ hfeed']
  · rw [withReturns_of_no_newline hfeed]

theorem mem_of_mem_withReturns {c : Char} {cs : List Char} (hc : c ≠ '\r')
    (h : c ∈ withReturns cs) : c ∈ cs := by
  obtain ⟨d, hd, hmem⟩ := List.mem_flatMap.1 h
  split at hmem <;> simp_all

theorem rawLength?_withReturns (cs : List Char) :
    rawLength? (withReturns cs) =
      (rawLength? cs).map fun n => (withReturns (cs.take n)).length := by
  by_cases hparen : '(' ∈ cs
  · obtain ⟨delimiter, body, rfl, hdelimiter⟩ := List.eq_append_cons_of_mem hparen
    have hdelimiter' : '(' ∉ withReturns delimiter :=
      fun hmem => hdelimiter (mem_of_mem_withReturns (by decide) hmem)
    rw [withReturns_append, withReturns_cons (by decide), rawLength?_of_paren hdelimiter',
      rawLength?_of_paren hdelimiter, isRawDelimiter_withReturns]
    by_cases hraw : isRawDelimiter delimiter = true
    · have hfeed : '\n' ∉ delimiter := gap_not_mem_delimiter rfl hraw
      have hend := endAfter_withReturns (by simp [rawTerminator])
        (gap_not_mem_rawTerminator (w := '\n') rfl hraw)
        (gap_not_mem_rawTerminator (w := '\r') rfl hraw) body
      rw [if_pos hraw, if_pos hraw, Option.map_some, (take_drop_paren _ _ _).1, withReturns_append,
        withReturns_of_no_newline hfeed, withReturns_cons (by decide), hend]
      simp only [List.length_append, List.length_cons, Nat.add_assoc, Nat.add_comm 1]
    · rw [if_neg hraw, if_neg hraw]
      rfl
  · have hparen' : '(' ∉ withReturns cs :=
      fun hmem => hparen (mem_of_mem_withReturns (by decide) hmem)
    rw [rawLength?_of_no_paren hparen, rawLength?_of_no_paren hparen']
    rfl

/-- A literal that does not go on over a line feed ends where it did, or with its line. -/
theorem EndsLiteral.exists_withReturns {quote : Char} {body rest : List Char}
    (h : EndsLiteral quote body rest) (hquote : quote ∈ quotes) (hbody : '\n' ∉ body) :
    ∃ body' rest', withReturns (body ++ rest) = body' ++ rest' ∧
      EndsLiteral quote body' rest' ∧ Behind rest rest' := by
  rw [withReturns_append, withReturns_of_no_newline hbody]
  cases h with
  | atQuote h => exact ⟨_, _, rfl, .atQuote h, .same rest⟩
  | @atLineFeed _ rest h =>
      have hplain : '\r' ≠ quote := by
        rcases mem_quotes_iff.1 hquote with rfl | rfl <;> decide
      refine ⟨body ++ ['\r'], '\n' :: withReturns rest, by simp, ?_, .inLineEnd rest⟩
      exact .atLineFeed (h.append (.plain (by decide) (by decide) hplain .nil))
  | atEnd h => exact ⟨_, _, rfl, .atEnd h, .same []⟩
  | atBackslash h => exact ⟨_, _, rfl, .atBackslash h, .same []⟩

theorem Action.exists_bodyLength?_withReturns {action : Action} {body rest : List Char}
    (h : action.bodyLength? (body ++ rest) = some body.length)
    (hquoted : ∀ quote kind, action = .quoted quote kind → quote ∈ quotes ∧ '\n' ∉ body) :
    ∃ body' rest', withReturns (body ++ rest) = body' ++ rest' ∧
      action.bodyLength? (body' ++ rest') = some body'.length ∧ Behind rest rest' := by
  cases action with
  | skip | emit =>
      obtain rfl : body = [] := List.length_eq_zero_iff.1 (Option.some.inj h).symm
      exact ⟨[], _, rfl, rfl, .same rest⟩
  | quoted quote kind =>
      obtain ⟨hquote, hbody⟩ := hquoted quote kind rfl
      have hends := endsLiteral_quotedLength quote (body ++ rest)
      rw [Option.some.inj h, List.take_left, List.drop_left] at hends
      obtain ⟨body', rest', hsplit, hends', hbehind⟩ := hends.exists_withReturns hquote hbody
      exact ⟨body', rest', hsplit, congrArg some (hends'.quotedLength_eq hquote), hbehind⟩
  | rawString =>
      refine ⟨_, _, withReturns_append body rest, ?_, .same rest⟩
      have hlength := rawLength?_withReturns (body ++ rest)
      rw [bodyLength?] at h
      rw [h] at hlength
      simpa [bodyLength?] using hlength
  | blockComment =>
      refine ⟨_, _, withReturns_append body rest, ?_, .same rest⟩
      have hlength : blockCommentLength (withReturns (body ++ rest)) =
          (withReturns ((body ++ rest).take (blockCommentLength (body ++ rest)))).length :=
        endAfter_withReturns (by decide) (by decide) (by decide) (body ++ rest)
      rw [Option.some.inj h] at hlength
      simpa [bodyLength?] using hlength

theorem newline_not_mem_of_numberTail {tail : List Char} (h : NumberTail tail) : '\n' ∉ tail := by
  induction h with
  | nil => simp
  | @char c cs hc tail ih =>
      have hline : '\n' ≠ c := by
        rintro rfl
        cases hc
      simp [hline, ih]
  | @pair c d cs hcd tail ih =>
      have hline : '\n' ≠ c ∧ '\n' ≠ d := by
        constructor
        · rintro rfl
          simp [isSignedExponent, isSeparated] at hcd
        · rintro rfl
          have hword : isWordChar '\n' = false := rfl
          simp [isSignedExponent, isSeparated, hword] at hcd
      simp [hline, ih]

/-- The front of a token does not go on over a line feed; only its body can. -/
theorem newline_not_mem_of_matches {rule : Rule} {front : List Char} (hmem : rule ∈ rules)
    (hkind : rule.action.kind? ≠ none) (h : rule.pattern.Matches front) : '\n' ∉ front := by
  cases hpattern : rule.pattern with
  | spelling text =>
      rw [hpattern] at h
      obtain ⟨rfl, -⟩ := h
      obtain ⟨hfeed, hreturn⟩ := eq_spliceRule hmem
      rcases gap_of_mem_spellings (mem_spellings hmem hpattern) with hgap | rfl | rfl
      · intro hline
        cases hgap '\n' hline
      · exact absurd (congrArg (·.action.kind?) (hfeed hpattern)) hkind
      · exact absurd (congrArg (·.action.kind?) (hreturn hpattern)) hkind
  | gap => exact absurd (congrArg (·.action.kind?) (eq_gapRule hmem hpattern)) hkind
  | word =>
      rw [hpattern] at h
      obtain ⟨c, tail, rfl, hc, htail⟩ := h
      intro hline
      cases hline with
      | head => cases hc
      | tail _ hline => cases htail '\n' hline
  | number =>
      rw [hpattern] at h
      obtain ⟨point, digit, tail, rfl, hpoint, hdigit, htail⟩ := h
      have hline : '\n' ≠ digit := by
        rintro rfl
        cases hdigit
      have htail' := newline_not_mem_of_numberTail htail
      rcases hpoint with rfl | rfl <;> simp [hline, htail']
  | lineComment =>
      rw [hpattern] at h
      obtain ⟨tail, rfl, htail⟩ := h
      simp [htail]

theorem not_splice_withReturns {cs : List Char} (hreturn : '\r' ∉ cs)
    (hsplice : ¬['\\', '\n'] <+: cs) :
    ¬['\\', '\n'] <+: withReturns cs ∧ ¬['\\', '\r', '\n'] <+: withReturns cs := by
  by_cases hback : ['\\'] <+: cs
  · obtain ⟨rest, rfl⟩ := hback
    cases rest with
    | nil => decide
    | cons d rest =>
        have hd : d ≠ '\n' ∧ d ≠ '\r' := by
          constructor
          · rintro rfl
            exact hsplice (List.prefix_append ['\\', '\n'] rest)
          · rintro rfl
            simp at hreturn
        rw [List.singleton_append, withReturns_cons (by decide), withReturns_cons hd.1]
        simp [hd.1.symm, hd.2.symm]
  · have hfront : ['\\'].isPrefixOf (withReturns cs) = ['\\'].isPrefixOf cs :=
      isPrefixOf_withReturns (by decide) (by decide) cs
    rw [← List.isPrefixOf_iff_prefix, ← hfront, List.isPrefixOf_iff_prefix] at hback
    exact ⟨fun h => hback (.trans (List.prefix_append ['\\'] _) h),
      fun h => hback (.trans (List.prefix_append ['\\'] _) h)⟩

theorem isPrefixOf_withReturns_of_mem_spellings {text cs : List Char} (h : text ∈ spellings)
    (hreturn : '\r' ∉ cs) (hsplice : ¬['\\', '\n'] <+: cs) :
    text.isPrefixOf (withReturns cs) = text.isPrefixOf cs := by
  obtain ⟨hfeed', hreturn'⟩ := not_splice_withReturns hreturn hsplice
  rcases gap_of_mem_spellings h with hgap | rfl | rfl
  · refine isPrefixOf_withReturns ?_ ?_ cs
    · intro hmem
      cases hgap '\n' hmem
    · intro hmem
      cases hgap '\r' hmem
  · rw [Bool.eq_iff_iff, List.isPrefixOf_iff_prefix, List.isPrefixOf_iff_prefix]
    exact iff_of_false hfeed' hsplice
  · rw [Bool.eq_iff_iff, List.isPrefixOf_iff_prefix, List.isPrefixOf_iff_prefix]
    refine iff_of_false hreturn' ?_
    intro hfront
    exact hreturn (hfront.subset (by simp))

/-- Carriage returns before the line feeds change no match but that of a gap, that of a line
comment and that of a splice. -/
theorem Rule.longest_withReturns {rule : Rule} {c : Char} {cs : List Char} (hmem : rule ∈ rules)
    (hc : isGap c = false) (hreturn : '\r' ∉ c :: cs) (hcomment : ¬['/', '/'] <+: c :: cs)
    (hsplice : ¬['\\', '\n'] <+: c :: cs) :
    rule.pattern.longest (withReturns (c :: cs)) = rule.pattern.longest (c :: cs) := by
  by_cases hfeed : '\n' ∈ c :: cs
  · obtain ⟨line, more, hcs, hnone⟩ := List.eq_append_cons_of_mem hfeed
    obtain ⟨line, rfl⟩ : ∃ tail, line = c :: tail := by
      cases line with
      | nil =>
          obtain ⟨rfl, -⟩ := List.cons.inj hcs
          cases hc
      | cons d tail => exact ⟨tail, by rw [(List.cons.inj hcs).1]⟩
    have hreturns : withReturns (c :: cs) = c :: line ++ '\r' :: '\n' :: withReturns more := by
      rw [hcs, withReturns_append, withReturns_of_no_newline hnone]
      rfl
    cases hpattern : rule.pattern with
    | spelling text =>
        have hprefix := isPrefixOf_withReturns_of_mem_spellings (mem_spellings hmem hpattern)
          hreturn hsplice
        simp only [Pattern.longest, hprefix]
    | gap =>
        rw [hreturns]
        simp [Pattern.longest, hc]
    | word =>
        rw [hreturns, hcs]
        exact (wordLength_append_cons rfl line _).trans (wordLength_append_cons rfl line more).symm
    | number =>
        rw [hreturns, hcs]
        exact (numberLength_append_cons rfl line _).trans
          (numberLength_append_cons rfl line more).symm
    | lineComment =>
        have hprefix : ['/', '/'].isPrefixOf (withReturns (c :: cs)) =
            ['/', '/'].isPrefixOf (c :: cs) :=
          isPrefixOf_withReturns (by decide) (by decide) (c :: cs)
        rw [← List.isPrefixOf_iff_prefix, Bool.not_eq_true] at hcomment
        simp [Pattern.longest, lineCommentLength, hprefix, hcomment]
  · rw [withReturns_of_no_newline hfeed]

theorem longestMatch_withReturns {c : Char} {cs : List Char} (hc : isGap c = false)
    (hreturn : '\r' ∉ c :: cs) (hcomment : ¬['/', '/'] <+: c :: cs)
    (hsplice : ¬['\\', '\n'] <+: c :: cs) :
    longestMatch (withReturns (c :: cs)) rules = longestMatch (c :: cs) rules := by
  apply longestMatch_congr
  intro rule hmem
  exact rule.longest_withReturns hmem hc hreturn hcomment hsplice

theorem Rule.MatchesLongest.withReturns {rule : Rule} {front cs : List Char}
    (h : rule.MatchesLongest front (front ++ cs)) (hline : '\n' ∉ front)
    (hsame : longestMatch (withReturns (front ++ cs)) rules = longestMatch (front ++ cs) rules) :
    rule.MatchesLongest front (front ++ withReturns cs) := by
  rw [longestMatch_of_matchesLongest h, withReturns_append,
    withReturns_of_no_newline hline] at hsame
  obtain ⟨hmatch, -⟩ := matchesLongest_of_longestMatch hsame
  rwa [List.take_left] at hmatch

end CxxUnits
