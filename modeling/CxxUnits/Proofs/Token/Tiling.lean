import CxxUnits.Proofs.Token.Lexemes
import CxxUnits.Token.Longest

/-!
Nothing is lost in lexing. The tokens of a text and the gaps between them lie side by
side and make up the text; every token has a place of its own, on character boundaries,
and what stands in a gap is white space and splices only. This holds of every text, also
where a literal is unterminated or a character begins no token.
-/
namespace CxxUnits

open Text

/-- White space and splices, in any order and number. -/
inductive Separates : List Char → Prop
  | nil : Separates []
  | space {c : Char} {cs : List Char} (hc : isGap c = true) (rest : Separates cs) :
      Separates (c :: cs)
  | splice {cs : List Char} (rest : Separates cs) : Separates ('\\' :: '\n' :: cs)
  | spliceReturn {cs : List Char} (rest : Separates cs) :
      Separates ('\\' :: '\r' :: '\n' :: cs)

/-- The tokens lie in a text that begins at byte `start`, each after a gap and the last
before one, and nothing else is in the text. -/
inductive Tiles : Nat → List Token → List Char → Prop
  | nil {start : Nat} {gap : List Char} (hgap : Separates gap) : Tiles start [] gap
  | cons {start : Nat} {gap rest : List Char} {token : Token} {tokens : List Token}
      (hgap : Separates gap) (hstart : token.span.start = start + byteLength gap)
      (htext : token.text.toList ≠ [])
      (hstop : token.span.stop = token.span.start + byteLength token.text.toList)
      (hrest : Tiles token.span.stop tokens rest) :
      Tiles start (token :: tokens) (gap ++ (token.text.toList ++ rest))

theorem separates_of_isGap {cs : List Char} (h : ∀ c ∈ cs, isGap c = true) : Separates cs := by
  induction cs with
  | nil => exact .nil
  | cons c cs ih =>
      obtain ⟨hc, hcs⟩ := List.forall_mem_cons.1 h
      exact .space hc (ih hcs)

theorem Separates.append {gap gap' : List Char} (h : Separates gap) (h' : Separates gap') :
    Separates (gap ++ gap') := by
  induction h with
  | nil => exact h'
  | space hc _ ih => exact .space hc ih
  | splice _ ih => exact .splice ih
  | spliceReturn _ ih => exact .spliceReturn ih

theorem byteLength_pos {cs : List Char} (h : cs ≠ []) : 0 < byteLength cs := by
  cases cs with
  | nil => contradiction
  | cons c cs =>
      have := c.utf8Size_pos
      simp only [byteLength_cons]
      omega

theorem utf8ByteSize_ofList (cs : List Char) : (String.ofList cs).utf8ByteSize = byteLength cs := by
  induction cs with
  | nil => rfl
  | cons c cs ih =>
      rw [String.ofList_cons, String.utf8ByteSize_append, String.utf8ByteSize_singleton, ih,
        byteLength_cons]

theorem byteLength_toList (text : String) : byteLength text.toList = text.utf8ByteSize := by
  rw [← utf8ByteSize_ofList, String.ofList_toList]

theorem mem_gapRules_of_skip {rule : Rule} (h : rule ∈ rules) (haction : rule.action = .skip) :
    rule ∈ gapRules := by
  revert rule
  decide

/-- What a gap rule matches separates tokens. -/
theorem separates_of_mem_gapRules {rule : Rule} {cs : List Char} (h : rule ∈ gapRules)
    (hcs : rule.pattern.Matches cs) : Separates cs := by
  simp only [gapRules, List.mem_cons, List.not_mem_nil, or_false] at h
  obtain rfl | rfl | rfl := h
  · exact separates_of_isGap hcs.2
  · rw [hcs.1]
    exact .splice .nil
  · rw [hcs.1]
    exact .spliceReturn .nil

theorem Action.kind?_eq_none_iff {action : Action} : action.kind? = none ↔ action = .skip := by
  cases action <;> simp [kind?]

/-- Where no token is cut off, what is cut off separates tokens. -/
theorem separates_of_firstCut {cs : List Char} (h : (firstCut cs).kind? = none) :
    Separates (cs.take (firstCut cs).length) := by
  cases hmatch : longestMatch cs rules with
  | none =>
      rw [firstCut_of_no_match hmatch] at h
      cases h
  | some found =>
      obtain ⟨rule, length⟩ := found
      rw [firstCut_of_match hmatch, Rule.cut] at h ⊢
      cases hbody : rule.action.bodyLength? (cs.drop length) with
      | none => simp [hbody] at h
      | some body =>
          simp only [hbody] at h ⊢
          have hskip := Action.kind?_eq_none_iff.1 h
          obtain ⟨hmem, hlength⟩ := longestMatch_mem hmatch
          have hzero : body = 0 := by
            rw [hskip] at hbody
            exact (Option.some.inj hbody).symm
          have hpos : rule.pattern.longest cs ≠ 0 :=
            hlength ▸ Nat.ne_of_gt (longestMatch_pos hmatch)
          rw [hzero, Nat.add_zero, hlength]
          exact separates_of_mem_gapRules (mem_gapRules_of_skip hmem hskip)
            (Pattern.matches_take_longest hpos)

/-- A gap in front of a text joins the gap that the text begins with. -/
theorem Tiles.after_gap {start : Nat} {gap cs : List Char} {tokens : List Token}
    (hgap : Separates gap) (h : Tiles (start + byteLength gap) tokens cs) :
    Tiles start tokens (gap ++ cs) := by
  cases h with
  | nil hgap' => exact .nil (hgap.append hgap')
  | cons hgap' hstart htext hstop hrest =>
      rw [← List.append_assoc]
      refine .cons (hgap.append hgap') ?_ htext hstop hrest
      rw [hstart, byteLength_append, Nat.add_assoc]

theorem Tiles.after_token {start : Nat} {text cs : List Char} {tokens : List Token}
    (h : Tiles (start + byteLength text) tokens cs) (kind : TokenKind) (hne : text ≠ []) :
    Tiles start (⟨⟨kind, String.ofList text⟩, ⟨start, start + byteLength text⟩⟩ :: tokens)
      (text ++ cs) := by
  have htext : (String.ofList text).toList = text := String.toList_ofList
  rw [← List.nil_append (text ++ cs)]
  conv => arg 3; rw [← htext]
  refine .cons .nil rfl ?_ ?_ h
  · rwa [htext]
  · rw [htext]

theorem tiles_tokensFrom (start : Nat) (cs : List Char) :
    Tiles start (tokensFrom start (pieces cs)) cs := by
  fun_induction pieces cs generalizing start with
  | case1 => exact .nil .nil
  | case2 c cs cut ih =>
      have hrest := ih (start + byteLength ((c :: cs).take cut.length))
      have hcut := List.take_append_drop cut.length (c :: cs)
      cases hkind : cut.kind? with
      | none =>
          have hgap := hrest.after_gap (separates_of_firstCut hkind)
          rw [hcut] at hgap
          simpa only [tokensFrom] using hgap
      | some kind =>
          have hne : (c :: cs).take cut.length ≠ [] := by
            have := firstCut_length_pos (c :: cs)
            simp [cut, Nat.ne_of_gt this]
          have htoken := hrest.after_token kind hne
          rw [hcut] at htoken
          simpa only [tokensFrom] using htoken

theorem Tiles.start_le {start : Nat} {tokens : List Token} {cs : List Char}
    (h : Tiles start tokens cs) : ∀ token ∈ tokens, start ≤ token.span.start := by
  induction h with
  | nil => simp
  | cons hgap hstart htext hstop hrest ih =>
      refine List.forall_mem_cons.2 ⟨by omega, ?_⟩
      intro token hmem
      have := ih token hmem
      omega

/-- No token begins before those ahead of it have ended. -/
theorem Tiles.ordered {start : Nat} {tokens : List Token} {cs : List Char}
    (h : Tiles start tokens cs) :
    tokens.Pairwise fun token later => token.span.stop ≤ later.span.start := by
  induction h with
  | nil => exact .nil
  | cons hgap hstart htext hstop hrest ih => exact .cons hrest.start_le ih

/-- A token stands in the text where its span says. -/
theorem Tiles.exists_append_of_mem {start : Nat} {tokens : List Token} {cs : List Char}
    {token : Token} (h : Tiles start tokens cs) (hmem : token ∈ tokens) :
    ∃ before after, cs = before ++ (token.text.toList ++ after) ∧
      token.span.start = start + byteLength before ∧
      token.span.stop = token.span.start + byteLength token.text.toList ∧
      token.text.toList ≠ [] := by
  induction h with
  | nil => cases hmem
  | @cons start gap rest first tokens hgap hstart htext hstop hrest ih =>
      cases hmem with
      | head => exact ⟨gap, rest, rfl, hstart, hstop, htext⟩
      | tail _ hmem =>
          obtain ⟨before, after, hcs, hbegin, hend, hne⟩ := ih hmem
          refine ⟨gap ++ (first.text.toList ++ before), after, ?_, ?_, hend, hne⟩
          · rw [hcs]
            simp
          · rw [hbegin, hstop, hstart]
            simp [Nat.add_assoc]

theorem isValid_of_eq_append {text : String} {before after : List Char}
    (h : text.toList = before ++ after) :
    String.Pos.Raw.IsValid text ⟨byteLength before⟩ := by
  rw [String.Pos.Raw.isValid_iff_exists_take_toList]
  refine ⟨before.length, ?_⟩
  rw [h, List.take_left, utf8ByteSize_ofList]

theorem slice?_of_eq_append {text : String} {before found after : List Char}
    (h : text.toList = before ++ (found ++ after)) :
    slice? text (byteLength before) (byteLength before + byteLength found) =
      some (String.ofList found) := by
  rw [slice?, if_pos (Nat.le_add_right _ _), h, splitAtByte?_byteLength, Nat.add_sub_cancel_left]
  simp [splitAtByte?_byteLength]

theorem kind_ne_endOfInput_of_mem_lex {source : String} {token : Token}
    (h : token ∈ lex source) : token.kind ≠ .endOfInput := by
  have hmem : token.toLexeme ∈ lexemes source.toList := by
    rw [← map_toLexeme_lex]
    exact List.mem_map_of_mem h
  exact kind_ne_endOfInput_of_mem_lexemes hmem

/-- The tokens of a text and the gaps between them tile it: read in order, with the gaps
that the spans leave, they are the text, and each gap is made of white space and splices.
The spans are not empty, follow one another, end within the text and on character
boundaries, and no token is an end of input. -/
theorem tokens_and_gaps_tile (source : String) :
    Tiles 0 (lex source) source.toList ∧
      ((lex source).Pairwise fun token later => token.span.stop ≤ later.span.start) ∧
      ∀ token ∈ lex source,
        token.kind ≠ .endOfInput ∧
          token.span.start < token.span.stop ∧ token.span.stop ≤ source.utf8ByteSize ∧
          String.Pos.Raw.IsValid source ⟨token.span.start⟩ ∧
          String.Pos.Raw.IsValid source ⟨token.span.stop⟩ ∧
          slice? source token.span.start token.span.stop = some token.text := by
  have htiles : Tiles 0 (lex source) source.toList := tiles_tokensFrom 0 source.toList
  refine ⟨htiles, htiles.ordered, ?_⟩
  intro token hmem
  obtain ⟨before, after, hsource, hstart, hstop, htext⟩ := htiles.exists_append_of_mem hmem
  rw [Nat.zero_add] at hstart
  have hend : token.span.stop = byteLength (before ++ token.text.toList) := by
    rw [hstop, hstart, byteLength_append]
  have hvalid : String.Pos.Raw.IsValid source ⟨token.span.stop⟩ := by
    rw [hend]
    exact isValid_of_eq_append (by rw [hsource, List.append_assoc])
  refine ⟨kind_ne_endOfInput_of_mem_lex hmem, ?_, hvalid.le_utf8ByteSize, ?_, hvalid, ?_⟩
  · have := byteLength_pos htext
    omega
  · rw [hstart]
    exact isValid_of_eq_append hsource
  · rw [hstop, hstart, slice?_of_eq_append hsource, String.ofList_toList]

end CxxUnits
