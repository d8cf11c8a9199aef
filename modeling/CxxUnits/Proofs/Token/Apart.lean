import CxxUnits.Proofs.Token.Newline
import CxxUnits.Proofs.Token.Tiling

/-!
Lexing is local at white space. Where a text ends in white space that is part of no token,
its tokens are the same whatever comes behind it, and what comes behind lexes as it does by
itself. A body that would look beyond the white space would have to take it in. The one
exception is a backslash and a carriage return, which a line feed makes a splice.
-/
namespace CxxUnits

open Text

theorem endAfter_append_of_le {w : Char} {mark cs : List Char} (hw : w ∉ mark)
    (h : endAfter mark (cs ++ [w]) ≤ cs.length) (rest : List Char) :
    endAfter mark (cs ++ w :: rest) = endAfter mark (cs ++ [w]) := by
  have hends : mark <:+: cs := by
    by_contra hopen
    have := length_lt_endAfter hw hopen []
    omega
  rw [endAfter_append_of_contains hw hends, endAfter_append_of_contains hw hends]

theorem quotedLength_append_of_le {quote w : Char} {cs : List Char}
    (h : quotedLength quote (cs ++ [w]) ≤ cs.length) (rest : List Char) :
    quotedLength quote (cs ++ w :: rest) = quotedLength quote (cs ++ [w]) := by
  fun_induction endsEscaped quote cs with
  | case1 =>
      -- Nothing is taken of a line feed alone: any other character would be.
      have hback : w ≠ '\\' := by
        rintro rfl
        simp [quotedLength] at h
      rw [List.nil_append, quotedLength_cons quote _ hback] at h ⊢
      rw [List.nil_append, quotedLength_cons quote _ hback]
      by_cases hline : w = '\n'
      · rw [if_pos hline, if_pos hline]
      · rw [if_neg hline] at h
        split at h <;> simp at h
  | case2 => simp [quotedLength] at h
  | case3 c cs ih =>
      simp only [List.cons_append, quotedLength, List.length_cons, Nat.add_le_add_iff_right] at h ⊢
      rw [ih h]
  | case4 c cs hone hmore ih =>
      have hback := ne_backslash hone hmore
      rw [List.cons_append, quotedLength_cons quote _ hback] at h ⊢
      rw [List.cons_append, quotedLength_cons quote _ hback]
      by_cases hline : c = '\n'
      · rw [if_pos hline, if_pos hline]
      · by_cases hquote : c = quote
        · rw [if_neg hline, if_neg hline, if_pos hquote, if_pos hquote]
        · simp only [hline, hquote, if_false, List.length_cons, Nat.add_le_add_iff_right] at h ⊢
          rw [ih h]

theorem rawLength?_append_of_le {w : Char} {cs : List Char} (hw : isGap w = true)
    (h : ∀ n, rawLength? (cs ++ [w]) = some n → n ≤ cs.length) (rest : List Char) :
    rawLength? (cs ++ w :: rest) = rawLength? (cs ++ [w]) := by
  by_cases hparen : '(' ∈ cs
  · obtain ⟨delimiter, body, rfl, hdelimiter⟩ := List.eq_append_cons_of_mem hparen
    rw [List.append_assoc, List.cons_append, rawLength?_of_paren hdelimiter] at h ⊢
    rw [List.append_assoc, List.cons_append, rawLength?_of_paren hdelimiter]
    by_cases hraw : isRawDelimiter delimiter = true
    · rw [if_pos hraw] at h ⊢
      rw [if_pos hraw]
      have hle := h _ rfl
      simp only [List.length_append, List.length_cons] at hle
      rw [endAfter_append_of_le (gap_not_mem_rawTerminator hw hraw) (by omega) rest]
    · rw [if_neg hraw, if_neg hraw]
  · rw [rawLength?_append_of_no_paren hw hparen, rawLength?_append_of_no_paren hw hparen]

/-- A body that ends before white space does not look at what comes behind that. -/
theorem Action.bodyLength?_append_of_le {action : Action} {w : Char} {cs : List Char}
    (hw : isGap w = true) (h : ∀ n, action.bodyLength? (cs ++ [w]) = some n → n ≤ cs.length)
    (rest : List Char) : action.bodyLength? (cs ++ w :: rest) = action.bodyLength? (cs ++ [w]) := by
  cases action with
  | skip | emit => rfl
  | quoted quote kind => exact congrArg some (quotedLength_append_of_le (h _ rfl) rest)
  | rawString => exact rawLength?_append_of_le hw h rest
  | blockComment =>
      have hmark : w ∉ ['*', '/'] := by
        intro hmem
        simp only [List.mem_cons, List.not_mem_nil, or_false] at hmem
        rcases hmem with rfl | rfl <;> cases hw
      exact congrArg some (endAfter_append_of_le hmark (h _ rfl) rest)

theorem takeWhile_append_of_le {p : Char → Bool} {w : Char} {cs : List Char}
    (h : ((cs ++ [w]).takeWhile p).length ≤ cs.length) (rest : List Char) :
    (cs ++ w :: rest).takeWhile p = (cs ++ [w]).takeWhile p := by
  induction cs with
  | nil =>
      cases hw : p w with
      | true => simp [hw] at h
      | false => simp [hw]
  | cons c cs ih =>
      cases hc : p c with
      | true => simpa [hc] using ih (by simpa [hc] using h)
      | false => simp [hc]

theorem lineCommentLength_append_of_le {w : Char} {cs : List Char} (hw : isGap w = true)
    (h : lineCommentLength (cs ++ [w]) ≤ cs.length) (rest : List Char) :
    lineCommentLength (cs ++ w :: rest) = lineCommentLength (cs ++ [w]) := by
  have hslash : w ∉ ['/', '/'] := by
    intro hmem
    obtain rfl : w = '/' := by simpa using hmem
    cases hw
  rw [lineCommentLength, isPrefixOf_append_cons hslash] at h ⊢
  rw [lineCommentLength, isPrefixOf_append_cons hslash]
  by_cases hcomment : ['/', '/'].isPrefixOf cs = true
  · rw [if_pos hcomment] at h ⊢
    rw [if_pos hcomment, takeWhile_append_of_le h]
  · rw [if_neg hcomment, if_neg hcomment]

theorem Rule.longest_append_of_le {rule : Rule} {c w : Char} {cs : List Char}
    (hmem : rule ∈ rules) (hc : isGap c = false) (hw : isGap w = true)
    (hreturn : ¬['\\', '\r'] <:+ c :: cs ++ [w])
    (h : rule.pattern.longest (c :: cs ++ [w]) ≤ (c :: cs).length) (rest : List Char) :
    rule.pattern.longest (c :: cs ++ w :: rest) = rule.pattern.longest (c :: cs ++ [w]) := by
  cases hpattern : rule.pattern with
  | spelling text =>
      have hprefix : text.isPrefixOf (c :: cs ++ w :: rest) = text.isPrefixOf (c :: cs ++ [w]) := by
        obtain hgap | rfl | rfl := gap_of_mem_spellings (mem_spellings hmem hpattern)
        · have hmark : w ∉ text := by
            intro hmark
            rw [hgap w hmark] at hw
            cases hw
          rw [isPrefixOf_append_cons hmark, isPrefixOf_append_cons hmark]
        · cases cs <;> simp [List.isPrefixOf]
        · match cs with
          | [] =>
              have hback : '\\' = c → '\r' ≠ w := by
                rintro rfl rfl
                exact hreturn List.suffix_rfl
              simpa [List.isPrefixOf] using fun hc hw => absurd hw (hback hc)
          | [d] => simp [List.isPrefixOf]
          | d :: e :: cs => simp [List.isPrefixOf]
      simp only [Pattern.longest, hprefix]
  | gap => simp [Pattern.longest, hc]
  | word =>
      have hword := isWordChar_of_isGap hw
      exact (wordLength_append_cons hword cs rest).trans (wordLength_append_cons hword cs []).symm
  | number =>
      exact (numberLength_append_cons hw cs rest).trans (numberLength_append_cons hw cs []).symm
  | lineComment =>
      rw [hpattern] at h
      exact lineCommentLength_append_of_le hw h rest

theorem longest_le_firstCut_length {rule : Rule} (hmem : rule ∈ rules) (cs : List Char) :
    rule.pattern.longest cs ≤ (firstCut cs).length := by
  cases hmatch : longestMatch cs rules with
  | none => simp [longestMatch_eq_none_iff.1 hmatch rule hmem]
  | some found =>
      obtain ⟨longest, length⟩ := found
      have hle := longest_le_of_longestMatch hmatch hmem
      rw [firstCut_of_match hmatch, Rule.cut]
      split <;> simp only <;> omega

/-- What is cut off before white space does not depend on what comes behind that. -/
theorem firstCut_append_of_le {c w : Char} {cs : List Char} (hc : isGap c = false)
    (hw : isGap w = true) (hreturn : ¬['\\', '\r'] <:+ c :: cs ++ [w])
    (h : (firstCut (c :: cs ++ [w])).length ≤ (c :: cs).length) (rest : List Char) :
    firstCut (c :: cs ++ w :: rest) = firstCut (c :: cs ++ [w]) := by
  have hsame : longestMatch (c :: cs ++ w :: rest) rules =
      longestMatch (c :: cs ++ [w]) rules := by
    apply longestMatch_congr
    intro rule hmem
    have hle := Nat.le_trans (longest_le_firstCut_length hmem (c :: cs ++ [w])) h
    exact rule.longest_append_of_le hmem hc hw hreturn hle rest
  cases hmatch : longestMatch (c :: cs ++ [w]) rules with
  | none => rw [firstCut_of_no_match hmatch, firstCut_of_no_match (hsame.trans hmatch)]
  | some found =>
      obtain ⟨rule, length⟩ := found
      rw [firstCut_of_match hmatch] at h ⊢
      rw [firstCut_of_match (hsame.trans hmatch)]
      have hlength : length ≤ (c :: cs).length := by
        have hcut : length ≤ (rule.cut length (c :: cs ++ [w])).length := by
          rw [Rule.cut]
          split <;> simp only <;> omega
        omega
      have hdrop : ∀ more, (c :: cs ++ more).drop length = (c :: cs).drop length ++ more :=
        fun more => List.drop_append_of_le_length hlength
      have hbody : ∀ n, rule.action.bodyLength? ((c :: cs).drop length ++ [w]) = some n →
          n ≤ ((c :: cs).drop length).length := by
        intro n hn
        rw [Rule.cut, hdrop, hn] at h
        rw [List.length_drop]
        simp only at h
        omega
      rw [Rule.cut, Rule.cut, hdrop, hdrop, Action.bodyLength?_append_of_le hw hbody]

theorem tokensFrom_dropWhile (start : Nat) (cs : List Char) :
    tokensFrom (start + byteLength (cs.takeWhile isGap)) (pieces (cs.dropWhile isGap)) =
      tokensFrom start (pieces cs) := by
  cases cs with
  | nil => rfl
  | cons c cs =>
      cases hc : isGap c with
      | false => simp [hc]
      | true =>
          have htake := List.prefix_iff_eq_take.1 (List.takeWhile_prefix (l := c :: cs) isGap)
          rw [pieces_of_ne_nil (List.cons_ne_nil c cs), firstCut_of_isGap hc, ← htake,
            drop_length_takeWhile]
          rfl

theorem tokensFrom_gap_cons {c : Char} (hc : isGap c = true) (start : Nat) (cs : List Char) :
    tokensFrom start (pieces (c :: cs)) = tokensFrom (start + c.utf8Size) (pieces cs) := by
  rw [← tokensFrom_dropWhile, ← tokensFrom_dropWhile (start + c.utf8Size)]
  simp [hc, Nat.add_assoc]

theorem splice_of_firstCut {c : Char} {cs : List Char} (hc : isGap c = false)
    (h : (firstCut (c :: cs)).kind? = none) :
    c = '\\' ∧ (['\n'] <+: cs ∨ ['\r', '\n'] <+: cs) := by
  have hpos := firstCut_length_pos (c :: cs)
  have hprefix := List.take_prefix (firstCut (c :: cs)).length (c :: cs)
  have hseparates := separates_of_firstCut h
  generalize hfront : (c :: cs).take (firstCut (c :: cs)).length = front at hseparates hprefix
  cases hseparates with
  | nil => simp [Nat.ne_of_gt hpos] at hfront
  | space hgap rest =>
      obtain ⟨rfl, -⟩ := List.cons_prefix_cons.1 hprefix
      rw [hgap] at hc
      cases hc
  | splice rest =>
      obtain ⟨rfl, hmore⟩ := List.cons_prefix_cons.1 hprefix
      exact ⟨rfl, .inl ((List.prefix_append ['\n'] _).trans hmore)⟩
  | spliceReturn rest =>
      obtain ⟨rfl, hmore⟩ := List.cons_prefix_cons.1 hprefix
      exact ⟨rfl, .inr ((List.prefix_append ['\r', '\n'] _).trans hmore)⟩

/-- A gap that begins with no white space and goes on to the end is a splice. -/
theorem firstCut_append_of_gap {c w : Char} {cs : List Char} (hc : isGap c = false)
    (hcut : firstCut (c :: cs ++ [w]) = ⟨none, (c :: cs ++ [w]).length⟩) (rest : List Char) :
    firstCut (c :: cs ++ w :: rest) = firstCut (c :: cs ++ [w]) := by
  have hnone : (firstCut (c :: cs ++ [w])).kind? = none := by rw [hcut]
  obtain ⟨rfl, hfeed | hreturn⟩ := splice_of_firstCut hc hnone
  · cases cs with
    | nil =>
        obtain rfl : '\n' = w := by simpa using hfeed
        simp only [List.cons_append, List.nil_append]
        rw [firstCut_splice rest, firstCut_splice []]
    | cons d cs =>
        obtain rfl : '\n' = d := by simpa using hfeed
        rw [List.cons_append, List.cons_append, firstCut_splice] at hcut
        simp at hcut
  · obtain ⟨d, cs, rfl⟩ : ∃ d more, cs = d :: more := by
      cases cs with
      | nil => simpa using hreturn.length_le
      | cons d cs => exact ⟨d, cs, rfl⟩
    cases cs with
    | nil =>
        obtain ⟨rfl, rfl⟩ : '\r' = d ∧ '\n' = w := by simpa using hreturn
        simp only [List.cons_append, List.nil_append]
        rw [firstCut_splice_return rest, firstCut_splice_return []]
    | cons e cs =>
        obtain ⟨rfl, rfl⟩ : '\r' = d ∧ '\n' = e := by simpa using hreturn
        rw [List.cons_append, List.cons_append, List.cons_append, firstCut_splice_return] at hcut
        simp at hcut

/-- What is cut off the front of a text that ends in white space is cut off as well when
more comes behind, unless the cut is a token that takes the white space in. -/
theorem firstCut_append {c w : Char} {cs : List Char} (hc : isGap c = false)
    (hw : isGap w = true) (hreturn : ¬['\\', '\r'] <:+ c :: cs ++ [w])
    (h : (firstCut (c :: cs ++ [w])).kind? ≠ none →
      (firstCut (c :: cs ++ [w])).length ≤ (c :: cs).length) (rest : List Char) :
    firstCut (c :: cs ++ w :: rest) = firstCut (c :: cs ++ [w]) := by
  rcases Nat.lt_or_ge (c :: cs).length (firstCut (c :: cs ++ [w])).length with hlong | hle
  · have hmost := firstCut_length_le (List.cons_ne_nil c (cs ++ [w]))
    have hnone : (firstCut (c :: cs ++ [w])).kind? = none := by
      by_contra hsome
      have := h hsome
      omega
    have hlength : (firstCut (c :: cs ++ [w])).length = (c :: cs ++ [w]).length := by
      rw [← List.cons_append] at hmost
      rw [List.length_append, List.length_singleton] at hmost ⊢
      omega
    have hcut : firstCut (c :: cs ++ [w]) = ⟨none, (c :: cs ++ [w]).length⟩ := by
      rw [← hnone, ← hlength]
    exact firstCut_append_of_gap hc hcut rest
  · exact firstCut_append_of_le hc hw hreturn hle rest

theorem tokensFrom_append_of_whole {text rest : List Char} {kind? : Option TokenKind}
    (hne : text ≠ []) (hcut : firstCut text = ⟨kind?, text.length⟩)
    (hcut' : firstCut (text ++ rest) = ⟨kind?, text.length⟩) (start : Nat) :
    tokensFrom start (pieces (text ++ rest)) =
      tokensFrom start (pieces text) ++ tokensFrom (start + byteLength text) (pieces rest) := by
  have hwhole := pieces_of_ne_nil hne
  rw [hcut, List.take_length, List.drop_length, pieces_nil] at hwhole
  rw [tokensFrom_of_firstCut hne hcut', hwhole, tokensFrom_cons, tokensFrom, List.append_nil]

/-- Where the cut is a token, it ends before the white space that no token takes in. -/
theorem length_firstCut_of_apart {c w : Char} {cs : List Char} {start : Nat}
    (hapart : ∀ token ∈ tokensFrom start (pieces (c :: cs ++ [w])),
      token.span.stop ≤ start + byteLength (c :: cs))
    (hsome : (firstCut (c :: cs ++ [w])).kind? ≠ none) :
    (firstCut (c :: cs ++ [w])).length ≤ (c :: cs).length := by
  by_contra hlong
  obtain ⟨kind, hkind⟩ := Option.ne_none_iff_exists'.1 hsome
  have htake : (c :: cs ++ [w]).take (firstCut (c :: cs ++ [w])).length = c :: cs ++ [w] := by
    apply List.take_of_length_le
    rw [List.length_append, List.length_singleton]
    omega
  have hmem : Token.placed start kind (c :: cs ++ [w]) ∈
      tokensFrom start (pieces (c :: cs ++ [w])) := by
    rw [pieces_of_ne_nil (by simp), htake, tokensFrom_cons, hkind]
    exact List.mem_append_left _ List.mem_cons_self
  have hstop := hapart _ hmem
  have hsize := w.utf8Size_pos
  simp only [Token.placed, byteLength_append, byteLength_cons, byteLength_nil] at hstop
  omega

/-- The first cut of a text is the same with more behind it. Either it is the whole text, or
the white space at the end is left over. -/
theorem exists_firstCut_append {c w : Char} {cs : List Char} {start : Nat}
    (hc : isGap c = false) (hw : isGap w = true) (hreturn : ¬['\\', '\r'] <:+ c :: cs ++ [w])
    (hapart : ∀ token ∈ tokensFrom start (pieces (c :: cs ++ [w])),
      token.span.stop ≤ start + byteLength (c :: cs)) (rest : List Char) :
    ∃ kind? text, text ≠ [] ∧ firstCut (c :: cs ++ [w]) = ⟨kind?, text.length⟩ ∧
      firstCut (c :: cs ++ w :: rest) = ⟨kind?, text.length⟩ ∧
      (c :: cs ++ [w] = text ∨ ∃ more, c :: cs = text ++ more) := by
  have hsame := firstCut_append hc hw hreturn (length_firstCut_of_apart hapart) rest
  have hpos := firstCut_length_pos (c :: cs ++ [w])
  have hmost : (firstCut (c :: cs ++ [w])).length ≤ (c :: cs ++ [w]).length :=
    firstCut_length_le (List.cons_ne_nil c (cs ++ [w]))
  generalize firstCut (c :: cs ++ [w]) = cut at hsame hpos hmost ⊢
  obtain ⟨kind?, length⟩ := cut
  have htake : ((c :: cs ++ [w]).take length).length = length := List.length_take_of_le hmost
  refine ⟨kind?, (c :: cs ++ [w]).take length, ?_, ?_, ?_, ?_⟩
  · rw [← List.length_pos_iff, htake]
    exact hpos
  · rw [htake]
  · rw [htake, hsame]
  · rcases Nat.lt_or_ge (c :: cs).length length with hlong | hle
    · left
      rw [List.take_of_length_le (by simpa using Nat.succ_le_of_lt hlong)]
    · right
      rw [List.take_append_of_le_length hle]
      exact ⟨_, (List.take_append_drop _ _).symm⟩

/-- Lexing splits behind white space that no token takes in. The induction is on the text
before it: white space goes one by one, all else as it is cut off. -/
theorem tokensFrom_append {w : Char} (hw : isGap w = true) (cs rest : List Char) (start : Nat)
    (hreturn : ¬['\\', '\r'] <:+ cs ++ [w])
    (hapart : ∀ token ∈ tokensFrom start (pieces (cs ++ [w])),
      token.span.stop ≤ start + byteLength cs) :
    tokensFrom start (pieces (cs ++ w :: rest)) =
      tokensFrom start (pieces (cs ++ [w])) ++
        tokensFrom (start + byteLength (cs ++ [w])) (pieces rest) := by
  induction hlength : cs.length using Nat.strongRecOn generalizing cs start with
  | ind length ih =>
      subst hlength
      cases cs with
      | nil =>
          rw [List.nil_append, List.nil_append, tokensFrom_gap_cons hw, tokensFrom_gap_cons hw,
            pieces_nil]
          rfl
      | cons c cs =>
          cases hc : isGap c with
          | true =>
              rw [List.cons_append, tokensFrom_gap_cons hc] at hapart
              rw [List.cons_append, List.cons_append, tokensFrom_gap_cons hc,
                tokensFrom_gap_cons hc, ih cs.length (Nat.lt_succ_self _) cs _ _ _ rfl]
              · rw [byteLength_cons, Nat.add_assoc]
              · intro hsuffix
                exact hreturn (hsuffix.trans (List.suffix_cons c _))
              · intro token hmem
                rw [Nat.add_assoc]
                exact hapart token hmem
          | false =>
              obtain ⟨kind?, text, hne, hcut, hsame, hwhole | ⟨more, hmore⟩⟩ :=
                exists_firstCut_append hc hw hreturn hapart rest
              · have hcons : c :: cs ++ w :: rest = c :: cs ++ [w] ++ rest := by simp
                rw [hcons, hwhole] at hsame
                rw [hwhole] at hcut
                rw [hcons, hwhole]
                exact tokensFrom_append_of_whole hne hcut hsame start
              · have hshorter : more.length < (c :: cs).length := by
                  have := List.length_pos_iff.2 hne
                  rw [hmore, List.length_append]
                  omega
                rw [hmore, List.append_assoc] at hreturn hcut hsame hapart ⊢
                rw [List.append_assoc]
                rw [tokensFrom_of_firstCut hne hcut] at hapart ⊢
                rw [tokensFrom_of_firstCut hne hsame, ih more.length hshorter more _ _ _ rfl,
                  List.append_assoc, byteLength_append text, Nat.add_assoc]
                · intro hsuffix
                  exact hreturn (hsuffix.trans (List.suffix_append text _))
                · intro token hmem
                  have hstop := hapart token (List.mem_append_right _ hmem)
                  rwa [byteLength_append, ← Nat.add_assoc] at hstop

/-- A gap ends in white space, a splice in its line feed. -/
theorem Separates.isGap_of_mem_getLast? {gap : List Char} (h : Separates gap) :
    ∀ w ∈ gap.getLast?, isGap w = true := by
  induction h with
  | nil => simp
  | @space c cs hc hrest ih =>
      cases hlast : cs.getLast? with
      | none => simp [List.getLast?_cons, hlast, hc]
      | some w => simpa [List.getLast?_cons, hlast] using ih w hlast
  | @splice cs hrest ih | @spliceReturn cs hrest ih =>
      cases hlast : cs.getLast? with
      | none =>
          have hnewline : isGap '\n' = true := rfl
          simp [List.getLast?_cons, hlast, hnewline]
      | some w => simpa [List.getLast?_cons, hlast] using ih w hlast

theorem Tiles.isGap_of_last {start : Nat} {tokens : List Token} {cs : List Char} {w : Char}
    (h : Tiles start tokens (cs ++ [w]))
    (hapart : ∀ token ∈ tokens, token.span.stop ≤ start + byteLength cs) : isGap w = true := by
  generalize htext : cs ++ [w] = text at h
  induction h generalizing cs with
  | nil hgap =>
      subst htext
      exact hgap.isGap_of_mem_getLast? w (by simp)
  | @cons start gap rest token tokens hgap hstart hne hstop hrest ih =>
      have hfirst := hapart token List.mem_cons_self
      rcases List.eq_nil_or_concat' rest with rfl | ⟨more, last, rfl⟩
      · have hsize := congrArg byteLength htext
        have hpos := w.utf8Size_pos
        simp only [byteLength_append, byteLength_cons, byteLength_nil] at hsize
        omega
      · rw [← List.append_assoc, ← List.append_assoc] at htext
        obtain ⟨rfl, hlast⟩ := List.append_inj' htext rfl
        obtain rfl := (List.cons.inj hlast).1
        refine ih ?_ rfl
        intro later hlater
        have := hapart later (List.mem_cons_of_mem _ hlater)
        simp only [byteLength_append] at this
        omega

/-- The text is empty, or its last character is part of no token and so is white space. -/
def EndsApart (text : String) : Prop :=
  text = "" ∨ ∃ cs w, text.toList = cs ++ [w] ∧
    ∀ token ∈ lex text, ¬(token.span.start ≤ byteLength cs ∧ byteLength cs < token.span.stop)

theorem EndsApart.exists_gap {text : String} (h : EndsApart text) (hne : text ≠ "") :
    ∃ cs w, text.toList = cs ++ [w] ∧ isGap w = true ∧
      ∀ token ∈ lex text, token.span.stop ≤ byteLength cs := by
  obtain ⟨cs, w, htext, hapart⟩ := h.resolve_left hne
  have htiles : Tiles 0 (lex text) (cs ++ [w]) := htext ▸ tiles_tokensFrom 0 text.toList
  have hstop : ∀ token ∈ lex text, token.span.stop ≤ byteLength cs := by
    intro token hmem
    obtain ⟨before, after, hcs, hstart, -, hnonempty⟩ := htiles.exists_append_of_mem hmem
    have hbefore : before <+: cs ++ [w] := ⟨_, hcs.symm⟩
    rcases List.prefix_concat_iff.1 hbefore with rfl | ⟨more, rfl⟩
    · simp [hnonempty] at hcs
    · have hout := hapart token hmem
      simp only [byteLength_append] at hout ⊢
      omega
  refine ⟨cs, w, htext, htiles.isGap_of_last ?_, hstop⟩
  simpa using hstop

/-- A text that ends apart lexes by itself, and so does what comes behind it. -/
theorem lex_append {front : String} (hfront : EndsApart front)
    (hreturn : ¬['\\', '\r'] <:+ front.toList) (rest : String) :
    lex (front ++ rest) = lex front ++ tokensFrom front.utf8ByteSize (pieces rest.toList) := by
  by_cases hne : front = ""
  · subst hne
    simp [lex, tokensFrom]
  · obtain ⟨cs, w, htext, hw, hapart⟩ := hfront.exists_gap hne
    have hsize : front.utf8ByteSize = byteLength (cs ++ [w]) := by
      rw [← htext, byteLength_toList]
    rw [htext] at hreturn
    have hsplit :=
      tokensFrom_append hw cs rest.toList 0 hreturn (by simpa [lex, htext] using hapart)
    rw [lex, lex, String.toList_append, htext, hsize, List.append_assoc]
    simpa using hsplit

theorem lexemes_append {front : String} (hfront : EndsApart front)
    (hreturn : ¬['\\', '\r'] <:+ front.toList) (rest : List Char) :
    lexemes (front.toList ++ rest) = lexemes front.toList ++ lexemes rest := by
  have hlex := congrArg (List.map Token.toLexeme) (lex_append hfront hreturn (String.ofList rest))
  rw [List.map_append, map_toLexeme_lex, map_toLexeme_lex, map_toLexeme_tokensFrom,
    String.toList_append, String.toList_ofList] at hlex
  exact hlex

/-- Lexing is local at white space: a text that ends apart has its own tokens whatever comes
behind it, and behind it come the tokens of the rest, moved on by its bytes. -/
theorem lexing_is_local_at_white_space {front : String} (hfront : EndsApart front)
    (hreturn : ¬['\\', '\r'] <:+ front.toList) (rest : String) :
    lex (front ++ rest) = lex front ++ (lex rest).map (Token.shift front.utf8ByteSize) := by
  rw [lex_append hfront hreturn, tokensFrom_pieces]

/-- A raw string that the rest would open and end, but for the white space before it. -/
theorem lexing_is_local_at_white_space_behind_rejected :
    let front := "é R\"x "
    EndsApart front ∧ ¬['\\', '\r'] <:+ front.toList ∧
      lex (front ++ "(])x\"") = lex front ++ (lex "(])x\"").map (Token.shift 7) := by
  intro front
  have hfront : EndsApart front := Or.inr ⟨"é R\"x".toList, ' ', by decide +kernel⟩
  have hreturn : ¬['\\', '\r'] <:+ front.toList := by decide +kernel
  exact ⟨hfront, hreturn, lexing_is_local_at_white_space hfront hreturn "(])x\""⟩

/-- A carriage return after a backslash is white space too, until a line feed comes behind. -/
example :
    EndsApart "\\\r" ∧
      lex ("\\\r" ++ "\n") ≠ lex "\\\r" ++ (lex "\n").map (Token.shift 2) :=
  ⟨Or.inr ⟨['\\'], '\r', by decide +kernel⟩, by decide +kernel⟩

end CxxUnits
