import CxxUnits.Proofs.Token.Quoted
import CxxUnits.Proofs.Token.Word
import Mathlib.Data.List.Pairwise

/-!
The identifiers of a text are the words that stand free in it. No cut of a text falls inside a
word, whatever is cut off before it: a word, a number and a line comment go on over word
characters, and all else ends in a character of another kind, with its line or with the text.
So a word that no literal, comment, number or opening of a raw string takes in is a token by
itself, and every identifier is such a word.
-/
namespace CxxUnits

open Text

/-- No word goes on from the one text into the other. -/
def PartsWords (before after : List Char) : Prop :=
  ∀ c ∈ before.getLast?, ∀ d ∈ after.head?, isWordChar c = true → isWordChar d = false

theorem NumberTail.concat {tail : List Char} {d : Char} (h : NumberTail tail)
    (hd : isNumberChar d = true) : NumberTail (tail ++ [d]) := by
  induction h with
  | nil => exact .char hd .nil
  | char hc _ ih => exact .char hc ih
  | pair hcd _ ih => exact .pair hcd ih

/-- A word, a number and a line comment go on over a word character. -/
theorem Pattern.Matches.concat {pattern : Pattern} {text : List Char} {d : Char}
    (h : pattern.Matches text) (hpattern : pattern ∈ [.word, .number, .lineComment])
    (hd : isWordChar d = true) : pattern.Matches (text ++ [d]) := by
  simp only [List.mem_cons, List.not_mem_nil, or_false] at hpattern
  obtain rfl | rfl | rfl := hpattern
  · obtain ⟨c, tail, rfl, hc, htail⟩ := h
    refine ⟨c, tail ++ [d], rfl, hc, ?_⟩
    intro e he
    rcases List.mem_append.1 he with he | he
    · exact htail e he
    · rwa [List.mem_singleton.1 he]
  · obtain ⟨point, digit, tail, rfl, hpoint, hdigit, htail⟩ := h
    have hnumber : isNumberChar d = true := by simp [isNumberChar, hd]
    exact ⟨point, digit, tail ++ [d], by simp, hpoint, hdigit, htail.concat hnumber⟩
  · obtain ⟨tail, rfl, htail⟩ := h
    have hline : '\n' ≠ d := by
      rintro rfl
      cases hd
    exact ⟨tail ++ [d], rfl, by simp [htail, hline]⟩

theorem isWordChar_last_of_mem_spellings {text : List Char} (h : text ∈ spellings) :
    ∀ c ∈ text.getLast?, isWordChar c = false := by
  have hall : ∀ text ∈ spellings, text.getLast?.any isWordChar = false := by
    decide +kernel
  intro c hc
  have hlast := hall text h
  rwa [Option.mem_def.1 hc] at hlast

theorem Rule.MatchesLongest.partsWords {rule : Rule} {front rest : List Char}
    (h : rule.MatchesLongest front (front ++ rest)) : PartsWords front rest := by
  intro c hc d hd hword
  by_contra hd'
  have hmatch := h.isMatch
  cases hpattern : rule.pattern with
  | spelling text =>
      rw [hpattern] at hmatch
      obtain ⟨rfl, -⟩ := hmatch
      rw [isWordChar_last_of_mem_spellings (mem_spellings h.mem hpattern) c hc] at hword
      cases hword
  | gap =>
      rw [hpattern] at hmatch
      rw [isWordChar_of_isGap (hmatch.2 c (List.mem_of_getLast? hc))] at hword
      cases hword
  | _ =>
      have hlonger : rule.pattern.Matches (front ++ [d]) :=
        hmatch.concat (by simp [hpattern]) (by simpa using hd')
      obtain ⟨rest, rfl⟩ := List.head?_eq_some_iff.1 hd
      have hle := h.longest rule h.mem _ hlonger ⟨rest, by simp⟩
      rw [List.length_append] at hle
      exact Nat.not_succ_le_self _ hle

theorem partsWords_of_suffix {c : Char} {before after : List Char} (hc : isWordChar c = false)
    (h : [c] <:+ before) : PartsWords before after := by
  obtain ⟨front, rfl⟩ := h
  intro d hd _ _ hword
  obtain rfl : c = d := by simpa using hd
  rw [hc] at hword
  cases hword

theorem partsWords_of_head {before after : List Char}
    (h : ∀ d ∈ after.head?, isWordChar d = false) : PartsWords before after :=
  fun _ _ d hd _ => h d hd

/-- What ends after a mark ends in it, or there is no mark. -/
theorem endAfter_cases (mark cs : List Char) :
    mark <:+ cs.take (endAfter mark cs) ∨ cs.drop (endAfter mark cs) = [] := by
  induction cs with
  | nil => exact .inr rfl
  | cons c cs ih =>
      rw [endAfter]
      cases hmark : mark.isPrefixOf (c :: cs) with
      | true =>
          left
          rw [if_pos rfl, ← List.prefix_iff_eq_take.1 (List.isPrefixOf_iff_prefix.1 hmark)]
      | false => exact ih.imp_left (·.trans (List.suffix_cons c _))

theorem suffix_or_nil_of_rawLength? {body rest : List Char}
    (h : rawLength? (body ++ rest) = some body.length) : ['"'] <:+ body ∨ rest = [] := by
  by_cases hparen : '(' ∈ body ++ rest
  · obtain ⟨delimiter, more, hcs, hnone⟩ := List.eq_append_cons_of_mem hparen
    rw [hcs, rawLength?_of_paren hnone] at h
    by_cases hraw : isRawDelimiter delimiter = true
    · rw [if_pos hraw] at h
      obtain ⟨htake, hdrop⟩ :=
        take_drop_paren delimiter more (endAfter (rawTerminator delimiter) more)
      rw [Option.some.inj h, ← hcs, List.take_left] at htake
      rw [Option.some.inj h, ← hcs, List.drop_left] at hdrop
      rw [htake, hdrop]
      refine (endAfter_cases (rawTerminator delimiter) more).imp_left ?_
      intro hmark
      have hquote : ['"'] <:+ rawTerminator delimiter := List.suffix_append (')' :: delimiter) ['"']
      have hbody : more.take (endAfter (rawTerminator delimiter) more) <:+
          delimiter ++ '(' :: more.take (endAfter (rawTerminator delimiter) more) :=
        (List.suffix_cons '(' _).trans (List.suffix_append delimiter _)
      exact hquote.trans (hmark.trans hbody)
    · rw [if_neg hraw] at h
      cases h
  · rw [rawLength?_of_no_paren hparen] at h
    cases h

/-- A body ends in a mark, with its line or with the text. -/
theorem Action.partsWords_of_opensBody {action : Action} {front body rest : List Char}
    (hopens : action.opensBody = true) (hquote : ∀ quote ∈ action.quote?, quote ∈ quotes)
    (h : action.bodyLength? (body ++ rest) = some body.length) :
    PartsWords (front ++ body) rest := by
  have hbody : body <:+ front ++ body := List.suffix_append front body
  cases action with
  | skip | emit => cases hopens
  | quoted quote kind =>
      have hends := endsLiteral_quotedLength quote (body ++ rest)
      rw [Option.some.inj h, List.take_left, List.drop_left] at hends
      cases hends with
      | atQuote =>
          have hword : isWordChar quote = false := by
            rcases mem_quotes_iff.1 (hquote quote rfl) with rfl | rfl <;> rfl
          exact partsWords_of_suffix hword (.trans (List.suffix_append _ [quote]) hbody)
      | atLineFeed =>
          have hline : ∀ d ∈ some '\n', isWordChar d = false := by
            rintro d ⟨⟩
            rfl
          exact partsWords_of_head hline
      | atEnd | atBackslash => exact partsWords_of_head (by simp)
  | rawString =>
      rcases suffix_or_nil_of_rawLength? h with hmark | rfl
      · exact partsWords_of_suffix rfl (hmark.trans hbody)
      · exact partsWords_of_head (by simp)
  | blockComment =>
      have hcases := endAfter_cases ['*', '/'] (body ++ rest)
      have hlength : endAfter ['*', '/'] (body ++ rest) = body.length := Option.some.inj h
      rw [hlength, List.take_left, List.drop_left] at hcases
      rcases hcases with hmark | rfl
      · have hslash : ['/'] <:+ body := .trans (List.suffix_cons '*' ['/']) hmark
        exact partsWords_of_suffix rfl (hslash.trans hbody)
      · exact partsWords_of_head (by simp)

theorem Action.body_eq_nil {action : Action} {body cs : List Char}
    (hopens : action.opensBody = false) (h : action.bodyLength? cs = some body.length) :
    body = [] := by
  cases action with
  | skip | emit => exact List.length_eq_zero_iff.1 (Option.some.inj h).symm
  | quoted | rawString | blockComment => cases hopens

theorem isWordChar_iff_start_or_digit {c : Char} :
    isWordChar c = true ↔ isWordStart c = true ∨ c.isDigit = true := by
  simp only [isWordChar, isWordStart, Char.isAlphanum, Bool.or_eq_true]
  exact or_right_comm

theorem NoMatch.isWordChar_head {c : Char} {cs : List Char} (h : NoMatch (c :: cs)) :
    isWordChar c = false := by
  have hfront : [c] <+: c :: cs := List.prefix_append [c] cs
  by_contra hword
  rcases isWordChar_iff_start_or_digit.1 (by simpa using hword) with hc | hc
  · exact h ⟨.word, .emit .identifier⟩ (by decide) [c] ⟨c, [], rfl, hc, by simp⟩ hfront
  · exact h ⟨.number, .emit .number⟩ (by decide) [c] ⟨[], c, [], rfl, .inl rfl, hc, .nil⟩ hfront

/-- No cut falls inside a word. -/
theorem ReadsAs.partsWords {text rest : List Char} {kind? : Option TokenKind}
    (h : ReadsAs (text ++ rest) kind? text) : PartsWords text rest := by
  generalize hcs : text ++ rest = cs at h
  cases h with
  | @whole rule front body rest₀ hrule hbody =>
      obtain rfl : rest = rest₀ := by simpa using hcs
      cases hopens : rule.action.opensBody with
      | true =>
          have hquote : ∀ quote ∈ rule.action.quote?, quote ∈ quotes :=
            fun quote hquote => (quotedRule_cases hrule.mem hquote).1
          exact Action.partsWords_of_opensBody hopens hquote hbody
      | false =>
          obtain rfl := Action.body_eq_nil hopens hbody
          rw [List.append_nil]
          exact hrule.partsWords
  | @rejected rule _ rest₀ hrule hraw hbody =>
      obtain rfl : rest = rest₀ := by simpa using hcs
      exact hrule.partsWords
  | @stray c rest₀ hnone =>
      intro d hd _ _ hword
      obtain rfl : c = d := by simpa using hd
      rw [hnone.isWordChar_head] at hword
      cases hword

/-- What takes words in that are no tokens: literals, comments, numbers, and what opens a raw
string that is none. -/
def HidesWords (lexeme : Lexeme) : Prop :=
  lexeme.kind ∈ [.string, .character, .comment, .number] ∨
    lexeme.kind = .unknown ∧ ∃ encoding ∈ encodings, lexeme.text = encoding ++ "R\""

/-- A rule that gives neither identifiers nor anything that takes words in matches none. -/
theorem rule_cases_of_word {rule : Rule} {text : List Char} {c : Char} (h : rule ∈ rules)
    (hopens : rule.action.opensBody = false) (hmatch : rule.pattern.Matches text) (hc : c ∈ text)
    (hword : isWordChar c = true) :
    ∃ kind ∈ [TokenKind.identifier, .comment, .number], rule.action.kind? = some kind := by
  have hall : ∀ rule ∈ rules, rule.action.opensBody = false →
      (∃ kind ∈ [TokenKind.identifier, .comment, .number], rule.action.kind? = some kind) ∨
        rule.pattern = .gap ∨ ∃ text ∈ spellings, rule.pattern = .spelling text ∧
          text.any isWordChar = false := by
    decide +kernel
  rcases hall rule h hopens with hkind | hgap | ⟨spelled, -, hpattern, hnone⟩
  · exact hkind
  · rw [hgap] at hmatch
    rw [isWordChar_of_isGap (hmatch.2 c hc)] at hword
    cases hword
  · rw [hpattern] at hmatch
    rw [hmatch.1] at hc
    exact absurd hword (List.any_eq_false.1 hnone c hc)

theorem kind?_of_opensBody {rule : Rule} (h : rule ∈ rules)
    (hopens : rule.action.opensBody = true) :
    ∃ kind ∈ [TokenKind.string, .character, .comment], rule.action.kind? = some kind := by
  revert rule
  decide +kernel

theorem rawRule_cases {rule : Rule} (h : rule ∈ rules) (hraw : rule.action = .rawString) :
    ∃ encoding ∈ encodings, rule.pattern = .spelling (encoding ++ "R\"").toList := by
  revert rule
  decide +kernel

/-- A word character is part of an identifier or of what takes words in. -/
theorem ReadsAs.exists_kind {cs text : List Char} {kind? : Option TokenKind} {c : Char}
    (h : ReadsAs cs kind? text) (hc : c ∈ text) (hword : isWordChar c = true) :
    ∃ kind, kind? = some kind ∧
      (kind = .identifier ∨ HidesWords ⟨kind, String.ofList text⟩) := by
  cases h with
  | @whole rule front body rest hrule hbody =>
      cases hopens : rule.action.opensBody with
      | true =>
          obtain ⟨kind, hkind, haction⟩ := kind?_of_opensBody hrule.mem hopens
          have hall : ∀ kind ∈ [TokenKind.string, .character, .comment],
              kind ∈ [TokenKind.string, .character, .comment, .number] := by decide
          exact ⟨kind, haction, .inr (.inl (hall kind hkind))⟩
      | false =>
          obtain rfl := Action.body_eq_nil hopens hbody
          rw [List.append_nil] at hc
          obtain ⟨kind, hkind, haction⟩ :=
            rule_cases_of_word hrule.mem hopens hrule.isMatch hc hword
          have hall : ∀ kind ∈ [TokenKind.identifier, .comment, .number], kind = .identifier ∨
              kind ∈ [TokenKind.string, .character, .comment, .number] := by decide
          exact ⟨kind, haction, (hall kind hkind).imp_right .inl⟩
  | rejected hrule hraw hbody =>
      obtain ⟨encoding, hencoding, hpattern⟩ := rawRule_cases hrule.mem hraw
      have hmatch := hrule.isMatch
      rw [hpattern] at hmatch
      refine ⟨.unknown, rfl, .inr (.inr ⟨rfl, encoding, hencoding, ?_⟩)⟩
      rw [hmatch.1, String.ofList_toList]
  | stray hnone =>
      obtain rfl := List.mem_singleton.1 hc
      rw [hnone.isWordChar_head] at hword
      cases hword

/-- The word is made of ASCII letters, digits and underscores, it begins with no digit, and no
such character stands right before it or right behind it. -/
structure IsWordBetween (before word after : List Char) : Prop where
  nonempty : word ≠ []
  all : ∀ c ∈ word, isWordChar c = true
  first : ∀ c ∈ word.head?, c.isDigit = false
  before : ∀ c ∈ before.getLast?, isWordChar c = false
  after : ∀ c ∈ after.head?, isWordChar c = false

theorem takeWhile_isWordChar {word after : List Char} (hall : ∀ c ∈ word, isWordChar c = true)
    (hafter : ∀ c ∈ after.head?, isWordChar c = false) :
    (word ++ after).takeWhile isWordChar = word := by
  rw [List.takeWhile_append_of_pos hall]
  cases after with
  | nil => simp
  | cons d after => simp [hafter d rfl]

/-- A word is all of the word characters that a text begins with. -/
theorem IsWordBetween.eq_of_append {before word after before' word' after' : List Char}
    (h : IsWordBetween before word after) (h' : IsWordBetween before' word' after')
    (heq : word ++ after = word' ++ after') : word = word' := by
  rw [← takeWhile_isWordChar h.all h.after, heq, takeWhile_isWordChar h'.all h'.after]

theorem IsWordBetween.before_eq_nil {before word after : List Char}
    (h : IsWordBetween before word after) (hall : ∀ c ∈ before, isWordChar c = true) :
    before = [] := by
  cases before.eq_nil_or_concat with
  | inl hnil => exact hnil
  | inr hlast =>
      obtain ⟨front, c, rfl⟩ := hlast
      have hc := h.before c (by simp)
      rw [hall c (by simp)] at hc
      cases hc

theorem IsWordBetween.of_append {front before word after : List Char}
    (h : IsWordBetween (front ++ before) word after) : IsWordBetween before word after := by
  refine ⟨h.nonempty, h.all, h.first, ?_, h.after⟩
  intro c hc
  refine h.before c ?_
  rw [List.getLast?_append, Option.mem_def.1 hc]
  rfl

/-- What is read as an identifier is a word, if no word goes on into it. -/
theorem ReadsAs.isWordBetween {before text rest : List Char}
    (h : ReadsAs (text ++ rest) (some .identifier) text)
    (hbefore : PartsWords before (text ++ rest)) : IsWordBetween before text rest := by
  have hmatch := h.of_identifier.isMatch
  have hall := isWordChar_of_matches_word hmatch
  obtain ⟨c, tail, rfl, hstart, -⟩ := hmatch
  have hnonempty := List.cons_ne_nil c tail
  refine ⟨hnonempty, hall, ?_, ?_, ?_⟩
  · intro d hd
    obtain rfl : c = d := Option.some.inj hd
    by_contra hdigit
    rw [isWordStart_of_isDigit (by simpa using hdigit)] at hstart
    cases hstart
  · intro d hd
    by_contra hword
    have hhead := hbefore d hd c rfl (by simpa using hword)
    rw [isWordChar_of_isWordStart hstart] at hhead
    cases hhead
  · intro d hd
    have hlast := List.getLast?_eq_some_getLast hnonempty
    exact h.partsWords _ hlast d hd (hall _ (List.getLast_mem hnonempty))

theorem partsWords_nil (after : List Char) : PartsWords [] after := by
  simp [PartsWords]

theorem PartsWords.append_left {before after : List Char} (h : PartsWords before after)
    (hne : before ≠ []) (front : List Char) : PartsWords (front ++ before) after := by
  intro c hc
  rw [List.getLast?_append_of_ne_nil front hne] at hc
  exact h c hc

/-- Every identifier is a word of the text, whatever stands in front of the text. -/
theorem LexesTo.exists_isWordBetween {start : Nat} {front cs : List Char} {tokens : List Token}
    {token : Token} (h : LexesTo start cs tokens) (hfront : PartsWords front cs)
    (hmem : token ∈ tokens) (hkind : token.kind = .identifier) :
    ∃ before after, cs = before ++ (token.text.toList ++ after) ∧
      token = Token.placed (start + byteLength before) .identifier token.text.toList ∧
      IsWordBetween (front ++ before) token.text.toList after := by
  induction h generalizing front with
  | nil => cases hmem
  | @gap start text rest tokens hreads _ ih =>
      have hparts := hreads.partsWords.append_left hreads.ne_nil front
      obtain ⟨before, after, rfl, htoken, hword⟩ := ih hparts hmem
      refine ⟨text ++ before, after, by rw [List.append_assoc], ?_, ?_⟩
      · rwa [byteLength_append, ← Nat.add_assoc]
      · rwa [← List.append_assoc]
  | @token start kind text rest tokens hreads _ ih =>
      cases hmem with
      | head =>
          obtain rfl : kind = .identifier := hkind
          refine ⟨[], rest, ?_, ?_, ?_⟩
          · simp [Token.placed]
          · simp [Token.placed]
          · simpa [Token.placed] using hreads.isWordBetween hfront
      | tail _ hmem =>
          have hparts := hreads.partsWords.append_left hreads.ne_nil front
          obtain ⟨before, after, rfl, htoken, hword⟩ := ih hparts hmem
          refine ⟨text ++ before, after, by rw [List.append_assoc], ?_, ?_⟩
          · rwa [byteLength_append, ← Nat.add_assoc]
          · rwa [← List.append_assoc]

/-- What is read from the front of a text ends before a word, is the word, or hides it. -/
theorem ReadsAs.cases_of_isWordBetween {before word after text rest : List Char}
    {kind? : Option TokenKind} (h : ReadsAs (text ++ rest) kind? text)
    (hcs : text ++ rest = before ++ (word ++ after)) (hword : IsWordBetween before word after) :
    (∃ more, before = text ++ more ∧ rest = more ++ (word ++ after)) ∨
      (kind? = some .identifier ∧ before = [] ∧ text = word) ∨
      ∃ kind, kind? = some kind ∧ HidesWords ⟨kind, String.ofList text⟩ ∧
        byteLength before < byteLength text := by
  obtain ⟨more, hbefore, hrest⟩ | ⟨more, rfl, hmore⟩ := List.append_eq_append_iff.1 hcs
  · exact .inl ⟨more, hbefore, hrest⟩
  · cases more with
    | nil => exact .inl ⟨[], by simp, by simpa using hmore.symm⟩
    | cons c more =>
        right
        have hc : isWordChar c = true := by
          obtain ⟨d, tail, hd⟩ := List.exists_cons_of_ne_nil hword.nonempty
          rw [hd] at hmore
          rw [← (List.cons.inj hmore).1]
          exact hword.all d (by simp [hd])
        obtain ⟨kind, rfl, rfl | hhides⟩ := h.exists_kind (by simp) hc
        · have hread := h.isWordBetween (partsWords_nil _)
          obtain rfl := hword.before_eq_nil fun d hd => hread.all d (List.mem_append_left _ hd)
          exact .inl ⟨rfl, rfl, hread.eq_of_append hword hcs⟩
        · refine .inr ⟨kind, rfl, hhides, ?_⟩
          have hpos := byteLength_pos (List.cons_ne_nil c more)
          rw [byteLength_append]
          omega

/-- The one span ends before the other begins. -/
def Span.IsClearOf (span other : Span) : Prop :=
  span.stop ≤ other.start ∨ other.stop ≤ span.start

/-- A word that nothing hides is an identifier. -/
theorem LexesTo.mem_of_isWordBetween {start : Nat} {before word after cs : List Char}
    {tokens : List Token} (h : LexesTo start cs tokens) (hcs : cs = before ++ (word ++ after))
    (hword : IsWordBetween before word after)
    (hfree : ∀ token ∈ tokens, HidesWords token.toLexeme →
      token.span.IsClearOf (Token.placed (start + byteLength before) .identifier word).span) :
    Token.placed (start + byteLength before) .identifier word ∈ tokens := by
  induction h generalizing before with
  | nil => exact absurd hcs.symm (by simp [hword.nonempty])
  | @gap start text rest tokens hreads _ ih =>
      obtain ⟨more, rfl, hrest⟩ | ⟨hkind, -⟩ | ⟨kind, hkind, -⟩ :=
        hreads.cases_of_isWordBetween hcs hword
      · rw [byteLength_append, ← Nat.add_assoc] at hfree ⊢
        exact ih hrest hword.of_append hfree
      · cases hkind
      · cases hkind
  | @token start kind text rest tokens hreads _ ih =>
      obtain ⟨hhead, htail⟩ := List.forall_mem_cons.1 hfree
      obtain ⟨more, rfl, hrest⟩ | ⟨hkind, rfl, rfl⟩ | ⟨kind', hkind, hhides, hlt⟩ :=
        hreads.cases_of_isWordBetween hcs hword
      · rw [byteLength_append, ← Nat.add_assoc] at htail ⊢
        exact List.mem_cons_of_mem _ (ih hrest hword.of_append htail)
      · rw [← Option.some.inj hkind]
        exact List.mem_cons_self
      · rw [← Option.some.inj hkind] at hhides
        have hpos := byteLength_pos hword.nonempty
        have hclear := hhead hhides
        simp only [Token.placed, Span.IsClearOf] at hclear
        omega

/-- A text and where it stands in a source. -/
structure Occurrence where
  text : String
  span : Span
deriving DecidableEq

/-- The text is a word of the source where its span says, and what hides words hides no part
of it. -/
structure Occurrence.StandsFree (word : Occurrence) (source : String) : Prop where
  isWord : ∃ before after, source.toList = before ++ (word.text.toList ++ after) ∧
    word.span.start = byteLength before ∧
    word.span.stop = byteLength before + byteLength word.text.toList ∧
    IsWordBetween before word.text.toList after
  free : ∀ token ∈ lex source, HidesWords token.toLexeme → token.span.IsClearOf word.span

def Token.occurrence? (token : Token) : Option Occurrence :=
  if token.kind = .identifier then some ⟨token.text, token.span⟩ else none

theorem Token.occurrence?_eq_some_iff {token : Token} {word : Occurrence} :
    token.occurrence? = some word ↔
      token.kind = .identifier ∧ ⟨token.text, token.span⟩ = word := by
  simp [occurrence?]

/-- The identifiers of a text and where they stand. -/
def occurrences (source : String) : List Occurrence :=
  (lex source).filterMap Token.occurrence?

theorem text_occurrences (source : String) :
    (occurrences source).map Occurrence.text = identifiers source := by
  rw [occurrences, List.map_filterMap, identifiers]
  congr 1
  funext token
  by_cases hkind : token.kind = .identifier <;> simp [Token.occurrence?, hkind]

theorem ordered_occurrences (source : String) :
    (occurrences source).Pairwise fun word later => word.span.stop ≤ later.span.start := by
  have htiles : Tiles 0 (lex source) source.toList := tiles_tokensFrom 0 source.toList
  refine htiles.ordered.filterMap Token.occurrence? ?_
  intro token later hle word hword word' hword'
  obtain ⟨-, rfl⟩ := Token.occurrence?_eq_some_iff.1 hword
  obtain ⟨-, rfl⟩ := Token.occurrence?_eq_some_iff.1 hword'
  exact hle

/-- Two tokens of a text have no byte in common. -/
theorem isClearOf_of_mem_lex {source : String} {token other : Token} (h : token ∈ lex source)
    (hother : other ∈ lex source) (hne : token ≠ other) : token.span.IsClearOf other.span := by
  have htiles : Tiles 0 (lex source) source.toList := tiles_tokensFrom 0 source.toList
  have hclear : (lex source).Pairwise fun token other => token.span.IsClearOf other.span :=
    htiles.ordered.imp .inl
  have hsymm : Std.Symm fun token other : Token => token.span.IsClearOf other.span :=
    ⟨fun _ _ => Or.symm⟩
  exact hclear.forall h hother hne

theorem HidesWords.kind_ne_identifier {lexeme : Lexeme} (h : HidesWords lexeme) :
    lexeme.kind ≠ .identifier := by
  intro hkind
  rcases h with h | ⟨h, -⟩ <;> simp [hkind] at h

theorem standsFree_of_mem_occurrences {source : String} {word : Occurrence}
    (h : word ∈ occurrences source) : word.StandsFree source := by
  obtain ⟨token, hmem, htoken⟩ := List.mem_filterMap.1 h
  obtain ⟨hkind, rfl⟩ := Token.occurrence?_eq_some_iff.1 htoken
  have hlexes : LexesTo 0 source.toList (lex source) := lexesTo_pieces 0 source.toList
  obtain ⟨before, after, hsource, hplaced, hword⟩ :=
    hlexes.exists_isWordBetween (partsWords_nil _) hmem hkind
  rw [Nat.zero_add] at hplaced
  have hspan := congrArg Token.span hplaced
  refine ⟨⟨before, after, hsource, congrArg Span.start hspan, congrArg Span.stop hspan, hword⟩, ?_⟩
  intro other hother hhides
  refine isClearOf_of_mem_lex hother hmem ?_
  rintro rfl
  exact hhides.kind_ne_identifier hkind

theorem mem_occurrences_of_standsFree {source : String} {word : Occurrence}
    (h : word.StandsFree source) : word ∈ occurrences source := by
  obtain ⟨text, start, stop⟩ := word
  obtain ⟨⟨before, after, hsource, hstart, hstop, hword⟩, hfree⟩ := h
  obtain rfl : start = byteLength before := hstart
  obtain rfl : stop = byteLength before + byteLength text.toList := hstop
  have hlexes : LexesTo 0 source.toList (lex source) := lexesTo_pieces 0 source.toList
  have hplaced : Token.placed (0 + byteLength before) .identifier text.toList =
      ⟨⟨.identifier, text⟩, ⟨byteLength before, byteLength before + byteLength text.toList⟩⟩ := by
    simp [Token.placed]
  have hmem := hlexes.mem_of_isWordBetween hsource hword (by rwa [hplaced])
  rw [hplaced] at hmem
  exact List.mem_filterMap.2 ⟨_, hmem, rfl⟩

/-- The identifiers of a text are the words that stand free in it, in the order of the text, and
each as often as it stands there: what has no characters but letters, digits and underscores,
begins with no digit, cannot be made longer on either side, and has no part in a literal with its
encoding prefix, a comment, a number or what opens a raw string that is none. -/
theorem identifiers_are_free_words (source : String) :
    ∃ words : List Occurrence, identifiers source = words.map Occurrence.text ∧
      (words.Pairwise fun word later => word.span.stop ≤ later.span.start) ∧
      ∀ word, word ∈ words ↔ word.StandsFree source := by
  refine ⟨occurrences source, (text_occurrences source).symm, ordered_occurrences source, ?_⟩
  intro word
  exact ⟨standsFree_of_mem_occurrences, mem_occurrences_of_standsFree⟩

-- What opens no raw string hides `LR` alone.
example : identifiers "f 2g u8\"h\" LR\"i f" = ["f", "i", "f"] := by
  decide +kernel

end CxxUnits
