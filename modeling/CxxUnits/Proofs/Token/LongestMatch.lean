import CxxUnits.Proofs.Token.Lexemes
import CxxUnits.Token.Longest
import Mathlib.Data.List.Nodup

/-!
Lexing takes the longest match at every place. `Rule.MatchesLongest` says of a rule that
no rule matches more of a text, and `LexesTo` reads a text by such rules from its front to
its end. No text is matched by two rules, so there is one way to read a text, and it is
the one the lexer takes. How far a body goes is what the action of its rule says.
-/
namespace CxxUnits

open Text

/-- The rule matches this front of a text, and no rule matches a longer one. -/
structure Rule.MatchesLongest (rule : Rule) (front cs : List Char) : Prop where
  mem : rule ∈ rules
  isMatch : rule.pattern.Matches front
  isFront : front <+: cs
  longest : ∀ other ∈ rules, ∀ text, other.pattern.Matches text → text <+: cs →
    text.length ≤ front.length

/-- No rule matches any front of the text. -/
def NoMatch (cs : List Char) : Prop :=
  ∀ rule ∈ rules, ∀ text, rule.pattern.Matches text → ¬text <+: cs

/-- The text begins like a raw string, and what follows is no delimiter. -/
def RejectsRawString (cs : List Char) : Prop :=
  ∃ rule front, Rule.MatchesLongest rule front cs ∧ rule.action = .rawString ∧
    rawLength? (cs.drop front.length) = none

/-- What the front of a text is read as: a gap, or a token of the given kind. -/
inductive ReadsAs : List Char → Option TokenKind → List Char → Prop
  | whole {rule : Rule} {front body rest : List Char}
      (hrule : rule.MatchesLongest front (front ++ (body ++ rest)))
      (hbody : rule.action.bodyLength? (body ++ rest) = some body.length) :
      ReadsAs (front ++ (body ++ rest)) rule.action.kind? (front ++ body)
  | rejected {rule : Rule} {front rest : List Char}
      (hrule : rule.MatchesLongest front (front ++ rest)) (hraw : rule.action = .rawString)
      (hbody : rawLength? rest = none) : ReadsAs (front ++ rest) (some .unknown) front
  | stray {c : Char} {rest : List Char} (hnone : NoMatch (c :: rest)) :
      ReadsAs (c :: rest) (some .unknown) [c]

/-- The text begins at byte `start`, and read from its front to its end it is these tokens. -/
inductive LexesTo : Nat → List Char → List Token → Prop
  | nil {start : Nat} : LexesTo start [] []
  | gap {start : Nat} {text rest : List Char} {tokens : List Token}
      (hfront : ReadsAs (text ++ rest) none text)
      (hrest : LexesTo (start + byteLength text) rest tokens) :
      LexesTo start (text ++ rest) tokens
  | token {start : Nat} {kind : TokenKind} {text rest : List Char} {tokens : List Token}
      (hfront : ReadsAs (text ++ rest) (some kind) text)
      (hrest : LexesTo (start + byteLength text) rest tokens) :
      LexesTo start (text ++ rest) (Token.placed start kind text :: tokens)

/-- The pattern that a text belongs to if it belongs to that of a rule. -/
def patternOf (text : List Char) : Pattern :=
  if text.all isGap then .gap
  else if text.head?.any isWordStart && text.all isWordChar then .word
  else if text.head?.any Char.isDigit || (text.head? == some '.' && text.tail != []) then .number
  else if ['/', '/'].isPrefixOf text then .lineComment
  else .spelling text

theorem patternOf_spelling {text : List Char} (h : text ∈ spellings) :
    patternOf text = .spelling text := by
  revert text
  decide +kernel

theorem isGap_of_isWordChar {c : Char} (h : isWordChar c = true) : isGap c = false := by
  cases hgap : isGap c with
  | false => rfl
  | true =>
      rw [isWordChar_of_isGap hgap] at h
      cases h

theorem isWordChar_of_isWordStart {c : Char} (h : isWordStart c = true) :
    isWordChar c = true := by
  simp only [isWordStart, isWordChar, Char.isAlphanum, Bool.or_eq_true] at h ⊢
  exact h.imp_left Or.inl

theorem isWordStart_of_isDigit {c : Char} (h : c.isDigit = true) : isWordStart c = false := by
  simp only [Char.isDigit, Bool.and_eq_true, decide_eq_true_eq, UInt32.le_iff_toNat_le,
    ge_iff_le] at h
  have hnine : '9'.val.toNat = 57 := rfl
  have hunderscore : c ≠ '_' := by
    rintro rfl
    exact absurd h.2 (by decide)
  have hupper : c.isUpper = decide ('A'.val ≤ c.val ∧ c.val ≤ 'Z'.val) := rfl
  have hlower : c.isLower = (decide ('a'.val ≤ c.val) && decide (c.val ≤ 'z'.val)) := rfl
  change (c.isUpper || c.isLower || c == '_') = false
  simp only [hupper, hlower, Bool.or_eq_false_iff, Bool.and_eq_false_iff,
    decide_eq_false_iff_not, beq_eq_false_iff_ne, UInt32.le_iff_toNat_le]
  have hA : 'A'.val.toNat = 65 := rfl
  have ha : 'a'.val.toNat = 97 := rfl
  exact ⟨⟨by omega, by omega⟩, hunderscore⟩

theorem patternOf_gap {text : List Char} (hall : ∀ c ∈ text, isGap c = true) :
    patternOf text = .gap := by
  have hgap : text.all isGap = true := List.all_eq_true.2 hall
  rw [patternOf, if_pos hgap]

theorem patternOf_word {c : Char} {tail : List Char} (hc : isWordStart c = true)
    (htail : ∀ d ∈ tail, isWordChar d = true) : patternOf (c :: tail) = .word := by
  have hword := isWordChar_of_isWordStart hc
  have hgap := isGap_of_isWordChar hword
  have hall : tail.all isWordChar = true := List.all_eq_true.2 htail
  simp [patternOf, hgap, hc, hword, hall]

theorem patternOf_number {point tail : List Char} {digit : Char}
    (hpoint : point = [] ∨ point = ['.']) (hdigit : digit.isDigit = true) :
    patternOf (point ++ digit :: tail) = .number := by
  have hstart := isWordStart_of_isDigit hdigit
  have hgap : isGap digit = false := by
    cases hgap : isGap digit with
    | false => rfl
    | true =>
        rw [isDigit_of_isGap hgap] at hdigit
        cases hdigit
  cases hpoint with
  | inl h => simp [patternOf, h, hgap, hstart, hdigit]
  | inr h =>
      have hgap' : isGap '.' = false := rfl
      have hstart' : isWordStart '.' = false := rfl
      simp [patternOf, h, hgap', hstart']

theorem patternOf_lineComment (tail : List Char) :
    patternOf ('/' :: '/' :: tail) = .lineComment := by
  have hgap : isGap '/' = false := rfl
  have hstart : isWordStart '/' = false := rfl
  simp [patternOf, hgap, hstart]

theorem patternOf_of_matches {rule : Rule} {text : List Char} (hmem : rule ∈ rules)
    (h : rule.pattern.Matches text) : patternOf text = rule.pattern := by
  cases hpattern : rule.pattern with
  | spelling spelled =>
      rw [hpattern] at h
      obtain ⟨rfl, -⟩ := h
      exact patternOf_spelling (mem_spellings hmem hpattern)
  | gap =>
      rw [hpattern] at h
      exact patternOf_gap h.2
  | word =>
      rw [hpattern] at h
      obtain ⟨c, tail, rfl, hc, htail⟩ := h
      exact patternOf_word hc htail
  | number =>
      rw [hpattern] at h
      obtain ⟨point, digit, tail, rfl, hpoint, hdigit, -⟩ := h
      exact patternOf_number hpoint hdigit
  | lineComment =>
      rw [hpattern] at h
      obtain ⟨tail, rfl, -⟩ := h
      exact patternOf_lineComment tail

theorem nodup_patterns : (rules.map Rule.pattern).Nodup := by
  decide +kernel

/-- No text is matched by two rules, so a longest match leaves nothing to choose. -/
theorem rule_eq_of_matches {rule other : Rule} {text : List Char} (hmem : rule ∈ rules)
    (hother : other ∈ rules) (h : rule.pattern.Matches text) (h' : other.pattern.Matches text) :
    rule = other := by
  have hpattern : rule.pattern = other.pattern :=
    (patternOf_of_matches hmem h).symm.trans (patternOf_of_matches hother h')
  exact List.inj_on_of_nodup_map nodup_patterns hmem hother hpattern

theorem Pattern.ne_nil_of_matches {pattern : Pattern} {text : List Char}
    (h : pattern.Matches text) : text ≠ [] := by
  cases pattern with
  | spelling spelled => exact h.2
  | gap => exact h.1
  | word =>
      obtain ⟨c, tail, rfl, -⟩ := h
      exact List.cons_ne_nil c tail
  | number =>
      obtain ⟨point, digit, tail, rfl, -⟩ := h
      simp
  | lineComment =>
      obtain ⟨tail, rfl, -⟩ := h
      simp

theorem Rule.MatchesLongest.eq_of_same_text {rule other : Rule} {front front' cs : List Char}
    (h : rule.MatchesLongest front cs) (h' : other.MatchesLongest front' cs) :
    rule = other ∧ front = front' := by
  have hle := h.longest other h'.mem front' h'.isMatch h'.isFront
  have hle' := h'.longest rule h.mem front h.isMatch h.isFront
  have hfront : front = front' :=
    (List.prefix_of_prefix_length_le h.isFront h'.isFront hle').eq_of_length (by omega)
  subst hfront
  exact ⟨rule_eq_of_matches h.mem h'.mem h.isMatch h'.isMatch, rfl⟩

theorem matchesLongest_of_longestMatch {cs : List Char} {rule : Rule} {length : Nat}
    (h : longestMatch cs rules = some (rule, length)) :
    rule.MatchesLongest (cs.take length) cs ∧ length ≤ cs.length := by
  obtain ⟨hmem, hlength⟩ := longestMatch_mem h
  have hle : length ≤ cs.length := hlength ▸ rule.pattern.longest_le cs
  have hpos : rule.pattern.longest cs ≠ 0 := hlength ▸ Nat.ne_of_gt (longestMatch_pos h)
  refine ⟨⟨hmem, ?_, List.take_prefix length cs, ?_⟩, hle⟩
  · rw [hlength]
    exact Pattern.matches_take_longest hpos
  · intro other hother text hmatch hfront
    rw [List.length_take_of_le hle]
    exact Nat.le_trans (Pattern.length_le_longest hmatch hfront)
      (longest_le_of_longestMatch h hother)

theorem noMatch_iff {cs : List Char} : NoMatch cs ↔ longestMatch cs rules = none := by
  rw [longestMatch_eq_none_iff]
  constructor
  · intro hnone rule hmem
    by_contra hpos
    exact hnone rule hmem _ (Pattern.matches_take_longest hpos) (List.take_prefix _ cs)
  · intro hzero rule hmem text hmatch hfront
    have hle := Pattern.length_le_longest hmatch hfront
    rw [hzero rule hmem] at hle
    exact Pattern.ne_nil_of_matches hmatch (List.length_eq_zero_iff.1 (Nat.le_zero.1 hle))

theorem longestMatch_of_matchesLongest {rule : Rule} {front cs : List Char}
    (h : rule.MatchesLongest front cs) : longestMatch cs rules = some (rule, front.length) := by
  cases hmatch : longestMatch cs rules with
  | none => exact absurd h.isFront (noMatch_iff.2 hmatch rule h.mem front h.isMatch)
  | some found =>
      obtain ⟨other, length⟩ := found
      obtain ⟨hother, hle⟩ := matchesLongest_of_longestMatch hmatch
      obtain ⟨rfl, rfl⟩ := h.eq_of_same_text hother
      rw [List.length_take_of_le hle]

theorem firstCut_of_matchesLongest {rule : Rule} {front cs : List Char}
    (h : rule.MatchesLongest front cs) : firstCut cs = rule.cut front.length cs :=
  firstCut_of_match (longestMatch_of_matchesLongest h)

theorem eq_rawString_of_bodyLength?_none {action : Action} {cs : List Char}
    (h : action.bodyLength? cs = none) : action = .rawString ∧ rawLength? cs = none := by
  cases action with
  | rawString => exact ⟨rfl, h⟩
  | skip | emit | quoted | blockComment => cases h

/-- What is cut off the front of a text is what the front is read as. -/
theorem readsAs_firstCut {cs : List Char} (h : cs ≠ []) :
    ReadsAs cs (firstCut cs).kind? (cs.take (firstCut cs).length) := by
  cases hmatch : longestMatch cs rules with
  | none =>
      rw [firstCut_of_no_match hmatch]
      cases cs with
      | nil => contradiction
      | cons c rest => exact .stray (noMatch_iff.2 hmatch)
  | some found =>
      obtain ⟨rule, length⟩ := found
      obtain ⟨hrule, hle⟩ := matchesLongest_of_longestMatch hmatch
      have hsplit := List.take_append_drop length cs
      rw [firstCut_of_match hmatch, Rule.cut]
      cases hbody : rule.action.bodyLength? (cs.drop length) with
      | none =>
          obtain ⟨hraw, hrejected⟩ := eq_rawString_of_bodyLength?_none hbody
          have hreads : ReadsAs (cs.take length ++ cs.drop length) (some .unknown)
              (cs.take length) := by
            apply ReadsAs.rejected _ hraw hrejected
            rwa [hsplit]
          rwa [hsplit] at hreads
      | some body =>
          have hbodyLe := Action.bodyLength?_le hbody
          have hbodySplit := List.take_append_drop body (cs.drop length)
          have hreads : ReadsAs (cs.take length ++ ((cs.drop length).take body ++
              (cs.drop length).drop body)) rule.action.kind?
              (cs.take length ++ (cs.drop length).take body) := by
            apply ReadsAs.whole
            · rwa [hbodySplit, hsplit]
            · rwa [hbodySplit, List.length_take_of_le hbodyLe]
          rw [hbodySplit, hsplit, ← List.take_add] at hreads
          exact hreads

theorem ReadsAs.firstCut_eq {cs text : List Char} {kind? : Option TokenKind}
    (h : ReadsAs cs kind? text) : firstCut cs = ⟨kind?, text.length⟩ := by
  cases h with
  | whole hrule hbody =>
      rw [firstCut_of_matchesLongest hrule, Rule.cut, List.drop_left, hbody, List.length_append]
  | rejected hrule hraw hbody =>
      rw [firstCut_of_matchesLongest hrule, Rule.cut, List.drop_left, hraw, Action.bodyLength?,
        hbody]
  | stray hnone => exact firstCut_of_no_match (noMatch_iff.1 hnone)

theorem ReadsAs.ne_nil {cs text : List Char} {kind? : Option TokenKind}
    (h : ReadsAs cs kind? text) : text ≠ [] := by
  cases h with
  | whole hrule hbody =>
      exact List.append_ne_nil_of_left_ne_nil (Pattern.ne_nil_of_matches hrule.isMatch) _
  | rejected hrule hraw hbody => exact Pattern.ne_nil_of_matches hrule.isMatch
  | stray hnone => simp

theorem ReadsAs.isFront {cs text : List Char} {kind? : Option TokenKind}
    (h : ReadsAs cs kind? text) : text <+: cs := by
  cases h with
  | @whole rule front body rest _ _ => exact ⟨rest, List.append_assoc front body rest⟩
  | rejected => exact List.prefix_append _ _
  | @stray c rest _ => exact List.prefix_append [c] rest

theorem lexesTo_pieces (start : Nat) (cs : List Char) :
    LexesTo start cs (tokensFrom start (pieces cs)) := by
  fun_induction pieces cs generalizing start with
  | case1 => exact .nil
  | case2 c cs cut ih =>
      have hrest := ih (start + byteLength ((c :: cs).take cut.length))
      have hsplit := List.take_append_drop cut.length (c :: cs)
      have hfront : ReadsAs ((c :: cs).take cut.length ++ (c :: cs).drop cut.length) cut.kind?
          ((c :: cs).take cut.length) := by
        rw [hsplit]
        exact readsAs_firstCut (List.cons_ne_nil c cs)
      cases hkind : cut.kind? with
      | none =>
          rw [hkind] at hfront
          have hgap := LexesTo.gap hfront hrest
          rw [hsplit] at hgap
          simpa only [tokensFrom] using hgap
      | some kind =>
          rw [hkind] at hfront
          have htoken := LexesTo.token hfront hrest
          rw [hsplit] at htoken
          simpa only [tokensFrom, Token.placed] using htoken

/-- There is one way to read a text. -/
theorem LexesTo.eq_tokensFrom {start : Nat} {cs : List Char} {tokens : List Token}
    (h : LexesTo start cs tokens) : tokensFrom start (pieces cs) = tokens := by
  induction h with
  | nil => rw [pieces_nil, tokensFrom]
  | gap hfront hrest ih =>
      rw [tokensFrom_of_firstCut hfront.ne_nil hfront.firstCut_eq, ih]
      rfl
  | token hfront hrest ih =>
      rw [tokensFrom_of_firstCut hfront.ne_nil hfront.firstCut_eq, ih]
      rfl

/-- Each token is what the text is read as from the place on where the token begins. -/
theorem LexesTo.exists_front {start : Nat} {cs : List Char} {tokens : List Token} {token : Token}
    (h : LexesTo start cs tokens) (hmem : token ∈ tokens) :
    ∃ before rest, cs = before ++ rest ∧ token.span.start = start + byteLength before ∧
      ReadsAs rest (some token.kind) token.text.toList := by
  induction h with
  | nil => cases hmem
  | @gap start text rest tokens hfront hrest ih =>
      obtain ⟨before, after, rfl, hstart, hreads⟩ := ih hmem
      refine ⟨text ++ before, after, by rw [List.append_assoc], ?_, hreads⟩
      rw [hstart, byteLength_append, Nat.add_assoc]
  | @token start kind text rest tokens hfront hrest ih =>
      cases hmem with
      | head =>
          refine ⟨[], text ++ rest, rfl, rfl, ?_⟩
          simpa only [Token.placed, String.toList_ofList] using hfront
      | tail _ hmem =>
          obtain ⟨before, after, rfl, hstart, hreads⟩ := ih hmem
          refine ⟨text ++ before, after, by rw [List.append_assoc], ?_, hreads⟩
          rw [hstart, byteLength_append, Nat.add_assoc]

theorem kind?_ne_unknown {rule : Rule} (h : rule ∈ rules) :
    rule.action.kind? ≠ some .unknown := by
  revert rule
  decide

/-- A front is of unknown kind where no rule matches it, or a raw string is not accepted. -/
theorem ReadsAs.unknown_iff {cs text : List Char} {kind : TokenKind}
    (h : ReadsAs cs (some kind) text) : kind = .unknown ↔ NoMatch cs ∨ RejectsRawString cs := by
  constructor
  · rintro rfl
    generalize hkind : some TokenKind.unknown = kind? at h
    cases h with
    | whole hrule hbody => exact absurd hkind.symm (kind?_ne_unknown hrule.mem)
    | rejected hrule hraw hbody =>
        right
        refine ⟨_, _, hrule, hraw, ?_⟩
        rwa [List.drop_left]
    | stray hnone => exact .inl hnone
  · intro hunknown
    have hcut := h.firstCut_eq
    cases hunknown with
    | inl hnone =>
        rw [firstCut_of_no_match (noMatch_iff.1 hnone)] at hcut
        exact (Option.some.inj (Cut.mk.inj hcut).1).symm
    | inr hrejects =>
        obtain ⟨rule, front, hrule, hraw, hbody⟩ := hrejects
        rw [firstCut_of_matchesLongest hrule, Rule.cut, hraw, Action.bodyLength?, hbody] at hcut
        exact (Option.some.inj (Cut.mk.inj hcut).1).symm

/-- The kinds that count as angles, and how each is spelled. -/
def angles : List (TokenKind × String) :=
  [(.less, "<"), (.greater, ">"), (.greaterGreater, ">>")]

theorem rule_of_angle {rule : Rule} {angle : TokenKind × String} (h : rule ∈ rules)
    (hangle : angle ∈ angles) (hkind : rule.action.kind? = some angle.1) :
    rule = .spelled angle.2 (.emit angle.1) := by
  have hall : ∀ rule ∈ rules, ∀ angle ∈ angles, rule.action.kind? = some angle.1 →
      rule = .spelled angle.2 (.emit angle.1) := by
    decide +kernel
  exact hall rule h angle hangle hkind

theorem angle_ne_unknown {angle : TokenKind × String} (h : angle ∈ angles) :
    angle.1 ≠ .unknown := by
  revert angle
  decide

theorem exists_rule_of_punctuator {text : String} (h : text ∈ ">>" :: punctuators) :
    ∃ rule ∈ rules, rule.pattern.Matches text.toList := by
  have hrule : ∀ text ∈ ">>" :: punctuators,
      text.toList ≠ [] ∧ ∃ rule ∈ rules, rule.pattern = .spelling text.toList := by
    decide +kernel
  obtain ⟨hne, rule, hmem, hpattern⟩ := hrule text h
  refine ⟨rule, hmem, ?_⟩
  rw [hpattern]
  exact ⟨rfl, hne⟩

/-- An angle is read only where no longer punctuator begins. -/
theorem ReadsAs.of_angle {cs text : List Char} {angle : TokenKind × String}
    (h : ReadsAs cs (some angle.1) text) (hangle : angle ∈ angles) :
    text = angle.2.toList ∧
      ∀ other ∈ ">>" :: punctuators, other.toList <+: cs → other.length ≤ angle.2.length := by
  generalize hkind : some angle.1 = kind? at h
  cases h with
  | @whole rule front body rest hrule hbody =>
      obtain rfl := rule_of_angle hrule.mem hangle hkind.symm
      have hfront : front = angle.2.toList := hrule.isMatch.1
      have hnil : body = [] := List.length_eq_zero_iff.1 (Option.some.inj hbody).symm
      subst hfront hnil
      refine ⟨List.append_nil _, ?_⟩
      intro other hother hprefix
      obtain ⟨rule, hmem, hmatch⟩ := exists_rule_of_punctuator hother
      have hlength := hrule.longest rule hmem _ hmatch hprefix
      rwa [String.length_toList, String.length_toList] at hlength
  | rejected | stray => exact absurd (Option.some.inj hkind) (angle_ne_unknown hangle)

/-- Of what is longer than an angle, nothing begins where the angle is read. -/
theorem ReadsAs.not_prefix_of_angle {cs text : List Char} {angle : TokenKind × String}
    {others : List String} (h : ReadsAs cs (some angle.1) text) (hangle : angle ∈ angles)
    (hothers : ∀ angle ∈ angles, ∀ other ∈ others,
      other ∈ ">>" :: punctuators ∧ ¬other.toList <+: angle.2.toList) :
    ∀ other ∈ others, ¬other.toList <+: cs := by
  intro other hother hprefix
  obtain ⟨hpunctuator, hlonger⟩ := hothers angle hangle other hother
  obtain ⟨rfl, hlongest⟩ := h.of_angle hangle
  have hlength := hlongest other hpunctuator hprefix
  rw [← String.length_toList, ← String.length_toList] at hlength
  exact hlonger (List.prefix_of_prefix_length_le hprefix h.isFront hlength)

/-- The tokens of a text are what it is read as by the rule with the longest match at each
place. A token is of unknown kind exactly where no rule matches, or where a raw string is not
accepted, and an angle is a token only where no longer punctuator begins: no shift, comparison
or arrow, alone or with what may follow it. -/
theorem lex_takes_longest_match (source : String) :
    (∀ tokens, lex source = tokens ↔ LexesTo 0 source.toList tokens) ∧
      ∀ token ∈ lex source, ∃ before rest, source.toList = before ++ rest ∧
        token.span.start = byteLength before ∧
        ReadsAs rest (some token.kind) token.text.toList ∧
        (token.kind = .unknown ↔ NoMatch rest ∨ RejectsRawString rest) ∧
        ∀ angle ∈ angles, token.kind = angle.1 → token.text = angle.2 ∧
          (∀ other ∈ ">>" :: punctuators, other.toList <+: rest →
            other.length ≤ token.text.length) ∧
          ∀ other ∈ ["<<", "<<=", "<=", "<=>", ">=", ">>=", "->", "->*"],
            ¬other.toList <+: rest := by
  have hlexes : LexesTo 0 source.toList (lex source) := lexesTo_pieces 0 source.toList
  constructor
  · intro tokens
    constructor
    · rintro rfl
      exact hlexes
    · intro h
      exact h.eq_tokensFrom
  · intro token hmem
    obtain ⟨before, rest, hsource, hstart, hreads⟩ := hlexes.exists_front hmem
    rw [Nat.zero_add] at hstart
    refine ⟨before, rest, hsource, hstart, hreads, hreads.unknown_iff, ?_⟩
    intro angle hangle hkind
    rw [hkind] at hreads
    obtain ⟨htext, hlongest⟩ := hreads.of_angle hangle
    rw [String.toList_inj.1 htext]
    refine ⟨rfl, hlongest, hreads.not_prefix_of_angle hangle ?_⟩
    decide +kernel

/-- Of the five that look like angles three count; the others are held by longer punctuators. -/
theorem lex_takes_longest_match_at_angle :
    let source := "a < b > c >> d <= e->f"
    let tokens : List Token := [⟨⟨.less, "<"⟩, ⟨2, 3⟩⟩, ⟨⟨.greater, ">"⟩, ⟨6, 7⟩⟩,
      ⟨⟨.greaterGreater, ">>"⟩, ⟨10, 12⟩⟩]
    ∀ token ∈ tokens, token ∈ lex source ∧ ∃ before rest, source.toList = before ++ rest ∧
      token.span.start = byteLength before ∧
      (∀ other ∈ ">>" :: punctuators, other.toList <+: rest →
        other.length ≤ token.text.length) ∧
      ∀ other ∈ ["<<", "<<=", "<=", "<=>", ">=", ">>=", "->", "->*"],
        ¬other.toList <+: rest := by
  intro source tokens token htoken
  have hlexed : ∀ token ∈ tokens, token ∈ lex source := by decide +kernel
  have hkinds : ∀ token ∈ tokens, (token.kind, token.text) ∈ angles := by decide
  obtain ⟨before, rest, hsource, hstart, -, -, hangle⟩ :=
    (lex_takes_longest_match source).2 token (hlexed token htoken)
  obtain ⟨-, hlongest, hnone⟩ := hangle _ (hkinds token htoken) rfl
  exact ⟨hlexed token htoken, before, rest, hsource, hstart, hlongest, hnone⟩

end CxxUnits
