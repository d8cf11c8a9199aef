import CxxUnits.Proofs.Token.Lexemes
import CxxUnits.Proofs.Token.LongestMatch
import CxxUnits.Proofs.Token.Newline
import Mathlib.Data.List.ProdSigma

/-!
Where a literal or a comment begins. What opens one is matched as such whatever follows
it, so its body begins right after. A quoted literal without escapes, a block comment and
a line comment then end at the first mark that can end them, and what stands in between
is their text.
-/
namespace CxxUnits

open Text

/-- A match by the rule is followed by a body. -/
def Action.opensBody : Action → Bool
  | .quoted _ _ | .rawString | .blockComment => true
  | .skip | .emit _ => false

/-- No word, number, gap or line comment goes on over this text, and no spelling does. -/
structure IsOpener (opener : List Char) : Prop where
  head : ∀ c ∈ opener.head?, isGap c = false ∧ c.isDigit = false ∧ c ≠ '.'
  notWord : ∃ c ∈ opener, isWordChar c = false
  notLineComment : ∀ tail, ¬opener <+: '/' :: '/' :: tail
  longest : ∀ other ∈ spellings, opener <+: other → other = opener

theorem isOpener_of_opensBody {rule : Rule} {opener : List Char} (h : rule ∈ rules)
    (hopens : rule.action.opensBody = true) (hpattern : rule.pattern = .spelling opener) :
    IsOpener opener := by
  have hall : ∀ rule ∈ rules, rule.action.opensBody = true → ∀ opener ∈ spellings,
      rule.pattern = .spelling opener →
        (opener.head?.any fun c => isGap c || c.isDigit || c == '.') = false ∧
        opener.all isWordChar = false ∧
        ¬opener.take 2 <+: ['/', '/'] ∧
        ∀ other ∈ spellings, opener <+: other → other = opener := by
    decide +kernel
  obtain ⟨hhead, hword, hslash, hlongest⟩ :=
    hall rule h hopens opener (mem_spellings h hpattern) hpattern
  refine ⟨?_, by simpa using hword, ?_, hlongest⟩
  · intro c hc
    rw [Option.mem_def.1 hc] at hhead
    simpa [and_assoc] using hhead
  · intro tail hfront
    exact hslash (hfront.take 2)

theorem IsOpener.length_le {opener text : List Char} {rule : Rule} (h : IsOpener opener)
    (hmem : rule ∈ rules) (hmatch : rule.pattern.Matches text) (hfront : opener <+: text) :
    text.length ≤ opener.length := by
  obtain ⟨d, hd, hnotWord⟩ := h.notWord
  obtain ⟨c, more, rfl⟩ := List.exists_cons_of_ne_nil (List.ne_nil_of_mem hd)
  obtain ⟨hgap, hdigit, hpoint⟩ := h.head c rfl
  cases hpattern : rule.pattern with
  | spelling spelled =>
      rw [hpattern] at hmatch
      obtain ⟨rfl, -⟩ := hmatch
      rw [h.longest text (mem_spellings hmem hpattern) hfront]
  | gap =>
      rw [hpattern] at hmatch
      rw [hmatch.2 c (hfront.subset List.mem_cons_self)] at hgap
      cases hgap
  | word =>
      rw [hpattern] at hmatch
      obtain ⟨first, tail, rfl, hfirst, htail⟩ := hmatch
      have hword : isWordChar d = true := by
        cases hfront.subset hd with
        | head => exact isWordChar_of_isWordStart hfirst
        | tail _ hmem => exact htail d hmem
      rw [hword] at hnotWord
      cases hnotWord
  | number =>
      rw [hpattern] at hmatch
      obtain ⟨point, digit, tail, rfl, rfl | rfl, hisDigit, -⟩ := hmatch
      · obtain ⟨rfl, -⟩ := List.cons_prefix_cons.1 hfront
        rw [hisDigit] at hdigit
        cases hdigit
      · obtain ⟨rfl, -⟩ := List.cons_prefix_cons.1 hfront
        exact absurd rfl hpoint
  | lineComment =>
      rw [hpattern] at hmatch
      obtain ⟨tail, rfl, -⟩ := hmatch
      exact absurd hfront (h.notLineComment tail)

/-- What opens a body is matched as such, whatever comes after it. -/
theorem matchesLongest_of_opensBody {rule : Rule} {opener : List Char} (h : rule ∈ rules)
    (hopens : rule.action.opensBody = true) (hpattern : rule.pattern = .spelling opener)
    (rest : List Char) : rule.MatchesLongest opener (opener ++ rest) := by
  have hopener := isOpener_of_opensBody h hopens hpattern
  obtain ⟨c, hc, -⟩ := hopener.notWord
  refine ⟨h, ?_, List.prefix_append opener rest, ?_⟩
  · rw [hpattern]
    exact ⟨rfl, List.ne_nil_of_mem hc⟩
  · intro other hother text hmatch hfront
    rcases Nat.le_total text.length opener.length with hle | hle
    · exact hle
    · have hlonger : opener <+: text :=
        List.prefix_of_prefix_length_le (List.prefix_append opener rest) hfront hle
      exact hopener.length_le hother hmatch hlonger

theorem readsAs_body {rule : Rule} {opener body rest : List Char} (h : rule ∈ rules)
    (hopens : rule.action.opensBody = true) (hpattern : rule.pattern = .spelling opener)
    (hbody : rule.action.bodyLength? (body ++ rest) = some body.length) :
    ReadsAs (opener ++ (body ++ rest)) rule.action.kind? (opener ++ body) :=
  .whole (matchesLongest_of_opensBody h hopens hpattern (body ++ rest)) hbody

theorem lexemes_of_readsAs {text rest : List Char} {kind : TokenKind}
    (h : ReadsAs (text ++ rest) (some kind) text) :
    lexemes (text ++ rest) = ⟨kind, String.ofList text⟩ :: lexemes rest := by
  have hne : text ++ rest ≠ [] := List.append_ne_nil_of_left_ne_nil h.ne_nil rest
  rw [lexemes_of_token hne h.firstCut_eq, List.take_left, List.drop_left]

/-- A mark that cannot overlap itself ends a text where it first stands. -/
theorem endAfter_append_mark {first : Char} {tail body : List Char} (hfirst : first ∉ tail)
    (hbody : ¬first :: tail <:+: body) (rest : List Char) :
    endAfter (first :: tail) (body ++ (first :: tail ++ rest)) =
      body.length + (first :: tail).length := by
  induction body with
  | nil => simp [endAfter]
  | cons c body ih =>
      rw [List.infix_cons_iff, not_or, ← List.isPrefixOf_iff_prefix] at hbody
      have hfront : (first :: tail).isPrefixOf (c :: (body ++ (first :: tail ++ rest))) =
          (first :: tail).isPrefixOf (c :: body) := by
        rw [List.isPrefixOf, List.isPrefixOf, List.cons_append,
          isPrefixOf_append_cons hfirst body (tail ++ rest)]
      rw [List.cons_append, endAfter, hfront, if_neg hbody.1, ih hbody.2, Nat.add_right_comm]
      rfl

def quotes : List Char :=
  ['"', '\'']

theorem mem_quotes_iff {quote : Char} : quote ∈ quotes ↔ quote = '"' ∨ quote = '\'' := by
  simp [quotes]

theorem exists_quotedRule {encoding : String} {quote : Char} (h : encoding ∈ encodings)
    (hquote : quote ∈ quotes) :
    ∃ kind, kind ≠ .comment ∧
      ⟨.spelling (encoding.toList ++ [quote]), .quoted quote kind⟩ ∈ rules := by
  have hall : ∀ opener ∈ encodings ×ˢ quotes, ∃ kind ∈ [TokenKind.string, .character],
      ⟨.spelling (opener.1.toList ++ [opener.2]), .quoted opener.2 kind⟩ ∈ rules := by
    decide +kernel
  obtain ⟨kind, hkind, hmem⟩ := hall ⟨encoding, quote⟩ (List.mem_product.2 ⟨h, hquote⟩)
  refine ⟨kind, ?_, hmem⟩
  rintro rfl
  simp at hkind

def Action.quote? : Action → Option Char
  | .quoted quote _ => some quote
  | _ => none

theorem quotedRule_cases {rule : Rule} {quote : Char} (h : rule ∈ rules)
    (hquote : rule.action.quote? = some quote) :
    quote ∈ quotes ∧
      ∃ encoding ∈ encodings, rule.pattern = .spelling (encoding.toList ++ [quote]) := by
  have hall : ∀ rule ∈ rules, rule.action.quote? = none ∨
      ∃ opener ∈ encodings ×ˢ quotes, rule.action.quote? = some opener.2 ∧
        rule.pattern = .spelling (opener.1.toList ++ [opener.2]) := by
    decide +kernel
  obtain hnone | ⟨⟨encoding, other⟩, hmem, hother, hpattern⟩ := hall rule h
  · rw [hnone] at hquote
    cases hquote
  · obtain rfl : other = quote := Option.some.inj (hother.symm.trans hquote)
    obtain ⟨hencoding, hquotes⟩ := List.mem_product.1 hmem
    exact ⟨hquotes, encoding, hencoding, hpattern⟩

/-- The text neither ends a literal with this quote nor escapes anything in it. -/
def IsPlain (quote : Char) (body : List Char) : Prop :=
  ∀ c ∈ body, c ≠ quote ∧ c ≠ '\\' ∧ c ≠ '\n'

/-- A literal without escapes and line ends goes on to its quote. -/
theorem quotedLength_of_isPlain {quote : Char} {body : List Char} (hquote : quote ∈ quotes)
    (h : IsPlain quote body) (rest : List Char) :
    quotedLength quote (body ++ quote :: rest) = body.length + 1 := by
  have hescape : quote ≠ '\\' ∧ quote ≠ '\n' := by
    rcases mem_quotes_iff.1 hquote with rfl | rfl <;> decide
  induction body with
  | nil =>
      rw [List.nil_append, quotedLength_cons quote rest hescape.1, if_neg hescape.2, if_pos rfl]
      rfl
  | cons c body ih =>
      obtain ⟨⟨hc, hback, hline⟩, hbody⟩ := List.forall_mem_cons.1 h
      rw [List.cons_append, quotedLength_cons quote _ hback, if_neg hline, if_neg hc, ih hbody]
      rfl

/-- A quoted literal is one lexeme, whatever plain text is in it. -/
theorem lexemes_quoted {quote : Char} (hquote : quote ∈ quotes) :
    ∃ kind, kind ≠ .comment ∧ ∀ body, IsPlain quote body → ∀ rest,
      lexemes (quote :: (body ++ quote :: rest)) =
        ⟨kind, String.ofList (quote :: (body ++ [quote]))⟩ :: lexemes rest := by
  have hplain : "" ∈ encodings := by decide
  obtain ⟨kind, hkind, hmem⟩ := exists_quotedRule hplain hquote
  refine ⟨kind, hkind, ?_⟩
  intro body hbody rest
  have hlength : quotedLength quote (body ++ [quote] ++ rest) = (body ++ [quote]).length := by
    rw [List.append_assoc, List.singleton_append, quotedLength_of_isPlain hquote hbody rest,
      List.length_append]
    rfl
  have hreads : ReadsAs ([quote] ++ (body ++ [quote] ++ rest)) (some kind)
      ([quote] ++ (body ++ [quote])) :=
    readsAs_body hmem rfl rfl (congrArg some hlength)
  rw [← List.append_assoc] at hreads
  have hlexemes := lexemes_of_readsAs hreads
  simpa using hlexemes

/-- A block comment is one lexeme, whatever text without its end is in it. -/
theorem lexemes_blockComment {body : List Char} (hbody : ¬['*', '/'] <:+: body)
    (rest : List Char) :
    lexemes ('/' :: '*' :: (body ++ '*' :: '/' :: rest)) =
      ⟨.comment, String.ofList ('/' :: '*' :: (body ++ ['*', '/']))⟩ :: lexemes rest := by
  have hmem : Rule.spelled "/*" .blockComment ∈ rules := by decide +kernel
  have hlength : blockCommentLength (body ++ ['*', '/'] ++ rest) =
      (body ++ ['*', '/']).length := by
    rw [List.append_assoc, blockCommentLength, endAfter_append_mark (by decide) hbody rest,
      List.length_append]
  have hreads : ReadsAs ("/*".toList ++ (body ++ ['*', '/'] ++ rest)) (some .comment)
      ("/*".toList ++ (body ++ ['*', '/'])) :=
    readsAs_body hmem rfl rfl (congrArg some hlength)
  rw [← List.append_assoc] at hreads
  have hlexemes := lexemes_of_readsAs hreads
  simpa using hlexemes

theorem length_le_of_slash {text : List Char} (h : '/' :: text ∈ spellings) :
    text.length ≤ 1 := by
  have hall : ∀ text ∈ spellings, text.head? = some '/' → text.tail.length ≤ 1 := by
    decide +kernel
  exact hall _ h rfl

theorem patternOf_slash (text : List Char) :
    patternOf ('/' :: text) = .lineComment ∨ patternOf ('/' :: text) = .spelling ('/' :: text) := by
  have hgap : isGap '/' = false := rfl
  have hword : isWordStart '/' = false := rfl
  by_cases hslash : ['/', '/'].isPrefixOf ('/' :: text) = true
  · simp [patternOf, hgap, hword, hslash]
  · simp [patternOf, hgap, hword, hslash]

theorem length_le_of_no_newline {tail body rest : List Char} (htail : '\n' ∉ tail)
    (hfront : tail <+: body ++ '\n' :: rest) : tail.length ≤ body.length := by
  rcases Nat.le_total tail.length body.length with hle | hle
  · exact hle
  · have hbody : body <+: tail :=
      List.prefix_of_prefix_length_le (List.prefix_append body _) hfront hle
    obtain ⟨more, rfl⟩ := hbody
    cases more with
    | nil => simp
    | cons c more =>
        obtain ⟨rfl, -⟩ := List.cons_prefix_cons.1 ((List.prefix_append_right_inj body).1 hfront)
        simp at htail

theorem matchesLongest_lineComment {body : List Char} (hbody : '\n' ∉ body) (rest : List Char) :
    Rule.MatchesLongest ⟨.lineComment, .emit .comment⟩ ('/' :: '/' :: body)
      ('/' :: '/' :: body ++ '\n' :: rest) := by
  refine ⟨by decide +kernel, ⟨body, rfl, hbody⟩, List.prefix_append _ _, ?_⟩
  intro other hother text hmatch hfront
  obtain ⟨c, more, rfl⟩ := List.exists_cons_of_ne_nil (Pattern.ne_nil_of_matches hmatch)
  obtain ⟨rfl, hmore⟩ := List.cons_prefix_cons.1 hfront
  have hpattern := patternOf_of_matches hother hmatch
  cases patternOf_slash more with
  | inl hline =>
      rw [hpattern.symm.trans hline] at hmatch
      obtain ⟨tail, htext, htail⟩ := hmatch
      obtain rfl := List.cons.inj htext |>.2
      have hle := length_le_of_no_newline htail (List.cons_prefix_cons.1 hmore).2
      simpa using hle
  | inr hspelled =>
      have hle := length_le_of_slash (mem_spellings hother (hpattern.symm.trans hspelled))
      simp only [List.length_cons]
      omega

theorem readsAs_lineComment {body : List Char} (hbody : '\n' ∉ body) (rest : List Char) :
    ReadsAs ('/' :: '/' :: body ++ '\n' :: rest) (some .comment) ('/' :: '/' :: body) := by
  let rule : Rule := ⟨.lineComment, .emit .comment⟩
  have hreads : ReadsAs ('/' :: '/' :: body ++ ([] ++ '\n' :: rest)) rule.action.kind?
      ('/' :: '/' :: body ++ []) := .whole (matchesLongest_lineComment hbody rest) rfl
  rwa [List.nil_append, List.append_nil] at hreads

/-- A line comment is one lexeme, whatever is in its line. -/
theorem lexemes_lineComment {body : List Char} (hbody : '\n' ∉ body) (rest : List Char) :
    lexemes ('/' :: '/' :: (body ++ '\n' :: rest)) =
      ⟨.comment, String.ofList ('/' :: '/' :: body)⟩ :: lexemes ('\n' :: rest) := by
  have hreads := readsAs_lineComment hbody rest
  exact lexemes_of_readsAs hreads

end CxxUnits
