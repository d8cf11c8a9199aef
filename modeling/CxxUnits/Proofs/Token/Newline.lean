import CxxUnits.Proofs.Token.Match
import Mathlib.Data.List.Infix

/-!
What a line feed after a text changes at its front. No spelled token, word, number or
line comment goes on over white space, a splice excepted that lacks its line feed. The
body of a literal or of a block comment goes on over a line feed if it is open there.
-/
namespace CxxUnits

open Text

theorem takeWhile_append_cons {p : Char → Bool} {w : Char} (hw : p w = false)
    (cs rest : List Char) : (cs ++ w :: rest).takeWhile p = cs.takeWhile p := by
  induction cs with
  | nil => simp [hw]
  | cons c cs ih =>
      cases hc : p c with
      | true => simp [hc, ih]
      | false => simp [hc]

theorem isPrefixOf_append_cons {w : Char} {mark : List Char} (hw : w ∉ mark)
    (cs rest : List Char) : mark.isPrefixOf (cs ++ w :: rest) = mark.isPrefixOf cs := by
  induction cs generalizing mark with
  | nil =>
      cases mark with
      | nil => rfl
      | cons m mark =>
          have hm : m ≠ w := fun h => hw (h ▸ List.mem_cons_self)
          simp [List.isPrefixOf, hm]
  | cons c cs ih =>
      cases mark with
      | nil => rfl
      | cons m mark =>
          have hmark : w ∉ mark := fun h => hw (List.mem_cons_of_mem _ h)
          simp [List.isPrefixOf, ih hmark]

theorem endAfter_append_of_contains {w : Char} {mark cs : List Char} (hw : w ∉ mark)
    (h : mark <:+: cs) (rest : List Char) :
    endAfter mark (cs ++ w :: rest) = endAfter mark cs := by
  induction cs with
  | nil =>
      obtain rfl := List.infix_nil.1 h
      rfl
  | cons c cs ih =>
      have hprefix := isPrefixOf_append_cons hw (c :: cs) rest
      rw [List.cons_append] at hprefix ⊢
      rw [endAfter, endAfter, hprefix]
      cases hfront : mark.isPrefixOf (c :: cs) with
      | true => rfl
      | false =>
          have hlater : mark <:+: cs := by
            refine (List.infix_cons_iff.1 h).resolve_left ?_
            rw [← List.isPrefixOf_iff_prefix, hfront]
            simp
          simp [ih hlater]

theorem length_lt_endAfter {w : Char} {mark cs : List Char} (hw : w ∉ mark)
    (h : ¬mark <:+: cs) (rest : List Char) : cs.length < endAfter mark (cs ++ w :: rest) := by
  induction cs with
  | nil =>
      have hprefix : mark.isPrefixOf (w :: rest) = false := by
        cases mark with
        | nil => exact absurd List.infix_rfl h
        | cons m mark =>
            have hm : m ≠ w := fun heq => hw (heq ▸ List.mem_cons_self)
            simp [List.isPrefixOf, hm]
      simp [endAfter, hprefix]
  | cons c cs ih =>
      rw [List.infix_cons_iff, not_or, ← List.isPrefixOf_iff_prefix] at h
      have hprefix := isPrefixOf_append_cons hw (c :: cs) rest
      rw [List.cons_append] at hprefix ⊢
      rw [endAfter, hprefix, if_neg h.1]
      exact Nat.succ_lt_succ (ih h.2)

theorem wordLength_append_cons {c w : Char} (hw : isWordChar w = false) (cs rest : List Char) :
    wordLength (c :: cs ++ w :: rest) = wordLength (c :: cs) := by
  simp only [List.cons_append, wordLength, takeWhile_append_cons hw]

theorem not_in_number_of_isGap {w : Char} (h : isGap w = true) (c : Char) :
    isNumberChar w = false ∧ (isSignedExponent c w || isSeparated c w) = false ∧
      (isSignedExponent w c || isSeparated w c) = false := by
  have hword := isWordChar_of_isGap h
  simp only [isGap, Bool.or_eq_true, beq_iff_eq] at h
  obtain ((((rfl | rfl) | rfl) | rfl) | rfl) | rfl := h
  all_goals
    refine ⟨rfl, ?_, ?_⟩
    · simp [isSignedExponent, isSeparated, hword]
    · simp [isSignedExponent, isSeparated]

theorem numberTailLength_of_isGap {w : Char} (hw : isGap w = true) (rest : List Char) :
    numberTailLength (w :: rest) = 0 := by
  cases rest with
  | nil => simp [numberTailLength, (not_in_number_of_isGap hw w).1]
  | cons c rest =>
      obtain ⟨hchar, -, hpair⟩ := not_in_number_of_isGap hw c
      rw [numberTailLength, hpair, hchar]
      rfl

theorem numberTailLength_append_cons {w : Char} (hw : isGap w = true) (cs rest : List Char) :
    numberTailLength (cs ++ w :: rest) = numberTailLength cs := by
  fun_induction numberTailLength cs with
  | case1 => exact numberTailLength_of_isGap hw rest
  | case2 c hc =>
      have hpair := (not_in_number_of_isGap hw c).2.1
      simp [numberTailLength, hpair, hc, numberTailLength_of_isGap hw rest]
  | case3 c hc =>
      have hpair := (not_in_number_of_isGap hw c).2.1
      simp [numberTailLength, hpair, hc]
  | case4 c d cs hcd ih => simp [numberTailLength, hcd, ih]
  | case5 c d cs hcd hc ih =>
      rw [List.cons_append] at ih
      simp [numberTailLength, hcd, hc, ih]
  | case6 c d cs hcd hc => simp [numberTailLength, hcd, hc]

theorem plainNumberLength_append_cons {w : Char} (hw : isGap w = true) (cs rest : List Char) :
    plainNumberLength (cs ++ w :: rest) = plainNumberLength cs := by
  cases cs with
  | nil => simp [plainNumberLength, isDigit_of_isGap hw]
  | cons d cs => simp [plainNumberLength, numberTailLength_append_cons hw]

theorem numberLength_append_cons {c w : Char} (hw : isGap w = true) (cs rest : List Char) :
    numberLength (c :: cs ++ w :: rest) = numberLength (c :: cs) := by
  have hcons := plainNumberLength_append_cons hw (c :: cs) rest
  rw [List.cons_append] at hcons ⊢
  rw [numberLength, numberLength, plainNumberLength_append_cons hw, hcons]

theorem lineCommentLength_append_newline (cs rest : List Char) :
    lineCommentLength (cs ++ '\n' :: rest) = lineCommentLength cs := by
  have hslashes : '\n' ∉ ['/', '/'] := by decide
  have hline : (cs ++ '\n' :: rest).takeWhile (· != '\n') = cs.takeWhile (· != '\n') :=
    takeWhile_append_cons (by decide) cs rest
  rw [lineCommentLength, lineCommentLength, isPrefixOf_append_cons hslashes, hline]

/-- A backslash that lacks only a line feed to join its line to the next. -/
def isHalfSplice (cs : List Char) : Bool :=
  cs == ['\\'] || cs == ['\\', '\r']

theorem Rule.longest_append_newline {rule : Rule} {c : Char} {cs : List Char}
    (hmem : rule ∈ rules) (hc : isGap c = false) (hsplice : isHalfSplice (c :: cs) = false)
    (rest : List Char) :
    rule.pattern.longest (c :: cs ++ '\n' :: rest) = rule.pattern.longest (c :: cs) := by
  cases hpattern : rule.pattern with
  | spelling text =>
      have hprefix : text.isPrefixOf (c :: cs ++ '\n' :: rest) = text.isPrefixOf (c :: cs) := by
        obtain hgap | rfl | rfl := gap_of_mem_spellings (mem_spellings hmem hpattern)
        · refine isPrefixOf_append_cons ?_ (c :: cs) rest
          intro hnewline
          cases hgap '\n' hnewline
        · cases cs with
          | nil =>
              have hback : '\\' ≠ c := by
                rintro rfl
                cases hsplice
              simp [List.isPrefixOf, hback]
          | cons d cs => simp [List.isPrefixOf]
        · match cs with
          | [] => simp [List.isPrefixOf]
          | [d] =>
              have hback : '\\' = c → '\r' ≠ d := by
                rintro rfl rfl
                cases hsplice
              simpa [List.isPrefixOf] using hback
          | d :: e :: cs => simp [List.isPrefixOf]
      simp only [Pattern.longest, hprefix]
  | gap => simp [Pattern.longest, hc]
  | word => exact wordLength_append_cons rfl cs rest
  | number => exact numberLength_append_cons rfl cs rest
  | lineComment => exact lineCommentLength_append_newline (c :: cs) rest

/-- The text ends inside a literal, after a backslash that would take a character more. -/
def endsEscaped (quote : Char) : List Char → Bool
  | [] => false
  | ['\\'] => true
  | '\\' :: _ :: cs => endsEscaped quote cs
  | c :: cs => c != '\n' && c != quote && endsEscaped quote cs

theorem quotedLength_cons {c : Char} (quote : Char) (cs : List Char) (hc : c ≠ '\\') :
    quotedLength quote (c :: cs) =
      if c = '\n' then 0 else if c = quote then 1 else quotedLength quote cs + 1 := by
  rw [quotedLength]
  · intro h
    exact absurd h hc
  · intro d ds h
    exact absurd h hc

theorem ne_backslash {c : Char} {cs : List Char} (hone : c = '\\' → cs = [] → False)
    (hmore : ∀ (d : Char) (ds : List Char), c = '\\' → cs = d :: ds → False) : c ≠ '\\' := by
  intro hback
  cases cs with
  | nil => exact hone hback rfl
  | cons d ds => exact hmore d ds hback rfl

theorem quotedLength_append_newline {quote : Char} {cs : List Char}
    (h : endsEscaped quote cs = false) (rest : List Char) :
    quotedLength quote (cs ++ '\n' :: rest) = quotedLength quote cs := by
  fun_induction endsEscaped quote cs with
  | case1 => simp [quotedLength]
  | case2 => cases h
  | case3 c cs ih => simp [quotedLength, ih h]
  | case4 c cs hone hmore ih =>
      have hback := ne_backslash hone hmore
      rw [List.cons_append, quotedLength_cons quote _ hback, quotedLength_cons quote _ hback]
      by_cases hline : c = '\n'
      · simp [hline]
      · by_cases hquote : c = quote
        · simp [hquote]
        · rw [ih (by simpa [hline, hquote] using h)]

theorem length_lt_quotedLength {quote : Char} {cs : List Char}
    (h : endsEscaped quote cs = true) (rest : List Char) :
    cs.length < quotedLength quote (cs ++ '\n' :: rest) := by
  fun_induction endsEscaped quote cs with
  | case1 => cases h
  | case2 => simp [quotedLength]
  | case3 c cs ih => simpa [quotedLength] using ih h
  | case4 c cs hone hmore ih =>
      have hback := ne_backslash hone hmore
      simp only [Bool.and_eq_true, bne_iff_ne] at h
      rw [List.cons_append, quotedLength_cons quote _ hback, if_neg h.1.1, if_neg h.1.2]
      exact Nat.succ_lt_succ (ih h.2)

/-- The text opens a raw string with a sound delimiter and does not end it. -/
def endsInRawString (cs : List Char) : Bool :=
  let delimiter := cs.takeWhile (· != '(')
  match cs.dropWhile (· != '(') with
  | [] => false
  | _ :: body => isRawDelimiter delimiter && !decide (rawTerminator delimiter <:+: body)

theorem gap_not_mem_delimiter {w : Char} {delimiter : List Char} (hw : isGap w = true)
    (h : isRawDelimiter delimiter = true) : w ∉ delimiter := by
  intro hmem
  simp only [isRawDelimiter, Bool.and_eq_true, List.all_eq_true] at h
  have hplain := h.2 w hmem
  rw [isBlank_of_isGap hw] at hplain
  cases hplain

theorem gap_not_mem_rawTerminator {w : Char} {delimiter : List Char} (hw : isGap w = true)
    (h : isRawDelimiter delimiter = true) : w ∉ rawTerminator delimiter := by
  have hdelimiter := gap_not_mem_delimiter hw h
  have hparen : w ≠ ')' := by
    rintro rfl
    cases hw
  have hquote : w ≠ '"' := by
    rintro rfl
    cases hw
  simp [rawTerminator, hdelimiter, hparen, hquote]

theorem ne_paren_of_not_mem {cs : List Char} (h : '(' ∉ cs) : ∀ c ∈ cs, (c != '(') = true := by
  intro c hc
  exact bne_iff_ne.2 fun heq => h (heq ▸ hc)

theorem dropWhile_of_no_paren {cs : List Char} (h : '(' ∉ cs) : cs.dropWhile (· != '(') = [] := by
  rw [← List.append_nil cs, List.dropWhile_append_of_pos (ne_paren_of_not_mem h)]
  rfl

theorem takeWhile_append_paren {delimiter : List Char} (h : '(' ∉ delimiter)
    (body : List Char) :
    (delimiter ++ '(' :: body).takeWhile (· != '(') = delimiter ∧
      (delimiter ++ '(' :: body).dropWhile (· != '(') = '(' :: body := by
  have hall := ne_paren_of_not_mem h
  rw [List.takeWhile_append_of_pos hall, List.dropWhile_append_of_pos hall]
  simp

/-- So much of what opens a raw string and of its body, and what is left of the body. -/
theorem take_drop_paren (delimiter body : List Char) (n : Nat) :
    (delimiter ++ '(' :: body).take (delimiter.length + 1 + n) = delimiter ++ '(' :: body.take n ∧
      (delimiter ++ '(' :: body).drop (delimiter.length + 1 + n) = body.drop n := by
  rw [Nat.add_assoc, List.take_length_add_append, List.drop_length_add_append, Nat.add_comm 1,
    List.take_succ_cons, List.drop_succ_cons]
  exact ⟨rfl, rfl⟩

theorem rawLength?_of_paren {delimiter : List Char} (h : '(' ∉ delimiter) (body : List Char) :
    rawLength? (delimiter ++ '(' :: body) =
      if isRawDelimiter delimiter then
        some (delimiter.length + 1 + endAfter (rawTerminator delimiter) body)
      else none := by
  obtain ⟨htake, hdrop⟩ := takeWhile_append_paren h body
  simp only [rawLength?, htake, hdrop]

theorem rawLength?_of_no_paren {cs : List Char} (h : '(' ∉ cs) : rawLength? cs = none := by
  simp only [rawLength?, dropWhile_of_no_paren h]

theorem endsInRawString_of_paren {delimiter : List Char} (h : '(' ∉ delimiter)
    (body : List Char) :
    endsInRawString (delimiter ++ '(' :: body) =
      (isRawDelimiter delimiter && !decide (rawTerminator delimiter <:+: body)) := by
  obtain ⟨htake, hdrop⟩ := takeWhile_append_paren h body
  simp only [endsInRawString, htake, hdrop]

theorem endsInRawString_of_no_paren {cs : List Char} (h : '(' ∉ cs) :
    endsInRawString cs = false := by
  simp only [endsInRawString, dropWhile_of_no_paren h]

/-- A delimiter does not go on over white space, so what follows can open no raw string. -/
theorem rawLength?_append_of_no_paren {w : Char} {cs : List Char} (hw : isGap w = true)
    (h : '(' ∉ cs) (rest : List Char) : rawLength? (cs ++ w :: rest) = none := by
  have hnotParen : '(' ≠ w := by
    rintro rfl
    cases hw
  by_cases hrest : '(' ∈ rest
  · obtain ⟨more, body, rfl, hmore⟩ := List.eq_append_cons_of_mem hrest
    have hparen : '(' ∉ cs ++ w :: more := by
      simp [h, hmore, hnotParen]
    have hraw : ¬isRawDelimiter (cs ++ w :: more) = true := by
      intro hraw
      exact gap_not_mem_delimiter hw hraw (by simp)
    have hcons : cs ++ w :: (more ++ '(' :: body) = cs ++ w :: more ++ '(' :: body := by
      simp
    rw [hcons, rawLength?_of_paren hparen, if_neg hraw]
  · refine rawLength?_of_no_paren ?_
    simp [h, hrest, hnotParen]

theorem rawLength?_append_newline {cs : List Char} (h : endsInRawString cs = false)
    (rest : List Char) : rawLength? (cs ++ '\n' :: rest) = rawLength? cs := by
  by_cases hparen : '(' ∈ cs
  · obtain ⟨delimiter, body, rfl, hdelimiter⟩ := List.eq_append_cons_of_mem hparen
    rw [endsInRawString_of_paren hdelimiter] at h
    rw [List.append_assoc, List.cons_append, rawLength?_of_paren hdelimiter,
      rawLength?_of_paren hdelimiter]
    by_cases hraw : isRawDelimiter delimiter = true
    · have hends : rawTerminator delimiter <:+: body := by
        simpa [hraw] using h
      rw [endAfter_append_of_contains (gap_not_mem_rawTerminator rfl hraw) hends]
    · rw [if_neg hraw, if_neg hraw]
  · rw [rawLength?_append_of_no_paren rfl hparen, rawLength?_of_no_paren hparen]

theorem length_lt_rawLength? {cs : List Char} (h : endsInRawString cs = true)
    (rest : List Char) : ∃ n, rawLength? (cs ++ '\n' :: rest) = some n ∧ cs.length < n := by
  by_cases hparen : '(' ∈ cs
  · obtain ⟨delimiter, body, rfl, hdelimiter⟩ := List.eq_append_cons_of_mem hparen
    rw [endsInRawString_of_paren hdelimiter] at h
    simp only [Bool.and_eq_true, Bool.not_eq_true', decide_eq_false_iff_not] at h
    have hnewline : '\n' ∉ rawTerminator delimiter := gap_not_mem_rawTerminator rfl h.1
    have hlong := length_lt_endAfter hnewline h.2 rest
    rw [List.append_assoc, List.cons_append, rawLength?_of_paren hdelimiter, if_pos h.1]
    refine ⟨_, rfl, ?_⟩
    simp only [List.length_append, List.length_cons]
    omega
  · rw [endsInRawString_of_no_paren hparen] at h
    cases h

/-- The text after a match would let its body go on over a line feed. -/
def Action.isOpen : Action → List Char → Bool
  | .quoted quote _, cs => endsEscaped quote cs
  | .rawString, cs => endsInRawString cs
  | .blockComment, cs => !decide (['*', '/'] <:+: cs)
  | .skip, _ => false
  | .emit _, _ => false

theorem Action.bodyLength?_append_newline {action : Action} {cs : List Char}
    (h : action.isOpen cs = false) (rest : List Char) :
    action.bodyLength? (cs ++ '\n' :: rest) = action.bodyLength? cs := by
  cases action with
  | skip | emit => rfl
  | quoted quote kind => exact congrArg some (quotedLength_append_newline h rest)
  | rawString => exact rawLength?_append_newline h rest
  | blockComment =>
      have hends : ['*', '/'] <:+: cs := by
        simpa [isOpen] using h
      exact congrArg some (endAfter_append_of_contains (by decide) hends rest)

theorem Action.length_lt_bodyLength? {action : Action} {cs : List Char}
    (h : action.isOpen cs = true) (rest : List Char) :
    ∃ n, action.bodyLength? (cs ++ '\n' :: rest) = some n ∧ cs.length < n := by
  cases action with
  | skip | emit => cases h
  | quoted quote kind => exact ⟨_, rfl, length_lt_quotedLength h rest⟩
  | rawString => exact length_lt_rawLength? h rest
  | blockComment =>
      have hopen : ¬['*', '/'] <:+: cs := by
        simpa [isOpen] using h
      exact ⟨_, rfl, length_lt_endAfter (by decide) hopen rest⟩

theorem Action.exists_kind_of_isOpen {action : Action} {cs : List Char}
    (h : action.isOpen cs = true) : ∃ kind, action.kind? = some kind := by
  cases action with
  | skip | emit => cases h
  | quoted quote kind => exact ⟨kind, rfl⟩
  | rawString => exact ⟨.string, rfl⟩
  | blockComment => exact ⟨.comment, rfl⟩

end CxxUnits
