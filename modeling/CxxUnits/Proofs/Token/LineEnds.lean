import CxxUnits.Proofs.Token.Joined
import CxxUnits.Proofs.Token.Returns

/-!
Lines that end in a carriage return and a line feed. Such a text has tokens of the same kinds
as with line feeds alone: white space, splices, comments, raw strings and literals that end
with their line all take the carriage return as it comes. The one exception is a literal that
goes on over a line feed. Its backslash takes the carriage return and no longer the line feed,
so the literal ends there, and what was left of it is lexed as a text of its own.
-/
namespace CxxUnits

open Text

def returned (source : String) : String :=
  String.ofList (withReturns source.toList)

def kinds (source : String) : List TokenKind :=
  (lex source).map (·.kind)

/-- The text begins like a literal in quotes, and goes on over a line feed. -/
def IsContinued (text : List Char) : Prop :=
  '\n' ∈ text ∧ ∃ encoding ∈ encodings, ∃ quote ∈ quotes, encoding.toList ++ [quote] <+: text

instance (text : List Char) : Decidable (IsContinued text) :=
  decidable_of_iff ('\n' ∈ text ∧ encodings.any fun encoding =>
    quotes.any fun quote => (encoding.toList ++ [quote]).isPrefixOf text) (by simp [IsContinued])

/-- A line comment takes the carriage return before the line feed that it ends at. -/
theorem ReadsAs.exists_withReturns_of_slashes {text rest : List Char} {kind : TokenKind}
    (h : ReadsAs (text ++ rest) (some kind) text) (hslashes : ['/', '/'] <+: text ++ rest)
    (hfeed : '\n' ∈ text ++ rest) :
    ∃ text' rest', withReturns (text ++ rest) = text' ++ rest' ∧
      ReadsAs (text' ++ rest') (some kind) text' ∧ Behind rest rest' := by
  obtain ⟨line, more, hcs, hnone⟩ := List.eq_append_cons_of_mem hfeed
  rw [hcs] at hslashes
  obtain ⟨body, rfl⟩ : ∃ body, line = '/' :: '/' :: body := by
    match line with
    | [] => simp at hslashes
    | [c] => simp at hslashes
    | c :: d :: body =>
        obtain ⟨rfl, hslash⟩ := List.cons_prefix_cons.1 hslashes
        obtain ⟨rfl, -⟩ := List.cons_prefix_cons.1 hslash
        exact ⟨body, rfl⟩
  have hbody : '\n' ∉ body ++ ['\r'] := by simpa using hnone
  have hcut := (readsAs_lineComment (by simpa using hnone) more).firstCut_eq
  rw [← hcs, h.firstCut_eq] at hcut
  obtain ⟨hkind, hlength⟩ := Cut.mk.inj hcut
  obtain ⟨rfl, rfl⟩ := List.append_inj hcs hlength
  rw [hkind, withReturns_append, withReturns_of_no_newline hnone]
  refine ⟨_, _, ?_, readsAs_lineComment hbody (withReturns more), .inLineEnd more⟩
  simp

theorem ReadsAs.isGap_head {c : Char} {cs text : List Char} {kind : TokenKind}
    (h : ReadsAs (c :: cs) (some kind) text) : isGap c = false := by
  by_contra hgap
  have hcut := h.firstCut_eq
  rw [firstCut_of_isGap (by simpa using hgap)] at hcut
  cases hcut

theorem ReadsAs.not_splice {cs text : List Char} {kind : TokenKind}
    (h : ReadsAs cs (some kind) text) : ¬['\\', '\n'] <+: cs := by
  rintro ⟨rest, rfl⟩
  have hcut := h.firstCut_eq
  rw [List.cons_append, List.singleton_append, firstCut_splice] at hcut
  cases hcut

/-- A token that is no line comment and does not go on over a line feed inside quotes. -/
theorem ReadsAs.exists_withReturns_of_not_slashes {text rest : List Char} {kind : TokenKind}
    (h : ReadsAs (text ++ rest) (some kind) text) (hreturn : '\r' ∉ text ++ rest)
    (hplain : ¬IsContinued text) (hslashes : ¬['/', '/'] <+: text ++ rest) :
    ∃ text' rest', withReturns (text ++ rest) = text' ++ rest' ∧
      ReadsAs (text' ++ rest') (some kind) text' ∧ Behind rest rest' := by
  obtain ⟨c, more, hcons⟩ := List.exists_cons_of_ne_nil h.ne_nil
  have hgap : isGap c = false := by
    rw [hcons] at h
    exact h.isGap_head
  have hsame : longestMatch (withReturns (text ++ rest)) rules =
      longestMatch (text ++ rest) rules := by
    have hsplice := h.not_splice
    rw [hcons] at hreturn hslashes hsplice ⊢
    exact longestMatch_withReturns hgap hreturn hslashes hsplice
  generalize hcs : text ++ rest = cs at h hsame ⊢
  generalize hkind : some kind = kind? at h
  cases h with
  | @whole rule front body rest₀ hrule hbody =>
      obtain rfl : rest = rest₀ := by simpa using hcs
      have hfront := newline_not_mem_of_matches hrule.mem (by simp [← hkind]) hrule.isMatch
      have hquoted : ∀ quote kind, rule.action = .quoted quote kind →
          quote ∈ quotes ∧ '\n' ∉ body := by
        intro quote kind haction
        obtain ⟨hquote, encoding, hencoding, hpattern⟩ :=
          quotedRule_cases hrule.mem (congrArg Action.quote? haction)
        have hmatch := hrule.isMatch
        rw [hpattern] at hmatch
        refine ⟨hquote, fun hline => hplain ⟨List.mem_append_right front hline, ?_⟩⟩
        rw [hmatch.1]
        exact ⟨encoding, hencoding, quote, hquote, List.prefix_append _ body⟩
      obtain ⟨body', rest', hsplit, hbody', hbehind⟩ :=
        Action.exists_bodyLength?_withReturns hbody hquoted
      have hrule' := hrule.withReturns hfront hsame
      rw [hsplit] at hrule'
      refine ⟨front ++ body', rest', ?_, ?_, hbehind⟩
      · rw [withReturns_append, withReturns_of_no_newline hfront, hsplit, List.append_assoc]
      · rw [List.append_assoc]
        exact .whole hrule' hbody'
  | @rejected rule _ rest₀ hrule hraw hbody =>
      obtain rfl : rest = rest₀ := by simpa using hcs
      have hkind : rule.action.kind? ≠ none := by simp [hraw, Action.kind?]
      have hfront := newline_not_mem_of_matches hrule.mem hkind hrule.isMatch
      have hbody' : rawLength? (withReturns rest) = none := by
        rw [rawLength?_withReturns, hbody]
        rfl
      refine ⟨text, withReturns rest, ?_, ?_, .same rest⟩
      · rw [withReturns_append, withReturns_of_no_newline hfront]
      · exact .rejected (hrule.withReturns hfront hsame) hraw hbody'
  | @stray d rest₀ hnone =>
      obtain rfl := (List.cons.inj hcons).1
      obtain rfl : rest = rest₀ := by simpa using hcs
      have hline : d ≠ '\n' := by
        rintro rfl
        cases hgap
      rw [withReturns_cons hline, noMatch_iff.1 hnone] at hsame
      refine ⟨[d], withReturns rest, ?_, .stray (noMatch_iff.2 hsame), .same rest⟩
      exact withReturns_cons hline rest

/-- What is read as a token that does not go on over a line feed inside quotes is read as one
of its kind when there are carriage returns before the line feeds. -/
theorem ReadsAs.exists_withReturns {text rest : List Char} {kind : TokenKind}
    (h : ReadsAs (text ++ rest) (some kind) text) (hreturn : '\r' ∉ text ++ rest)
    (hplain : ¬IsContinued text) :
    ∃ text' rest', withReturns (text ++ rest) = text' ++ rest' ∧
      ReadsAs (text' ++ rest') (some kind) text' ∧ Behind rest rest' := by
  by_cases hfeed : '\n' ∈ text ++ rest
  · by_cases hslashes : ['/', '/'] <+: text ++ rest
    · exact h.exists_withReturns_of_slashes hslashes hfeed
    · exact h.exists_withReturns_of_not_slashes hreturn hplain hslashes
  · have hrest : '\n' ∉ rest := fun hmem => hfeed (List.mem_append_right text hmem)
    have hbehind := Behind.same rest
    rw [withReturns_of_no_newline hrest] at hbehind
    exact ⟨text, rest, withReturns_of_no_newline hfeed, h, hbehind⟩

theorem Separates.withReturns {gap : List Char} (h : Separates gap) (hreturn : '\r' ∉ gap) :
    Separates (withReturns gap) := by
  induction h with
  | nil => exact .nil
  | @space c cs hc rest ih =>
      have hrest := ih (List.not_mem_of_not_mem_cons hreturn)
      by_cases hline : c = '\n'
      · subst hline
        exact .space rfl (.space rfl hrest)
      · rw [withReturns_cons hline]
        exact .space hc hrest
  | @splice cs rest ih =>
      rw [withReturns_cons (by decide), withReturns_newline]
      exact .spliceReturn (ih fun hmem => hreturn (by simp [hmem]))
  | spliceReturn => simp at hreturn

theorem lexemes_append_of_separates {gap : List Char} (h : Separates gap) (rest : List Char) :
    lexemes (gap ++ rest) = lexemes rest := by
  induction h with
  | nil => rfl
  | @space c cs hc _ ih =>
      have hgap : ∀ d ∈ [c], isGap d = true := by simpa using hc
      exact (lexemes_append_of_gap hgap _).trans ih
  | splice _ ih => exact (lexemes_of_skip (by simp) (firstCut_splice _)).trans ih
  | spliceReturn _ ih => exact (lexemes_of_skip (by simp) (firstCut_splice_return _)).trans ih

theorem ReadsAs.separates {text rest : List Char} (h : ReadsAs (text ++ rest) none text) :
    Separates text := by
  have hcut := h.firstCut_eq
  have hgap := separates_of_firstCut (congrArg Cut.kind? hcut)
  rwa [hcut, List.take_left] at hgap

/-- Up to the first token that goes on over a line feed inside quotes, the kinds are the same.
The induction is on the reading of the text. -/
theorem LexesTo.kinds_withReturns {start : Nat} {cs : List Char} {before after : List Token}
    (h : LexesTo start cs (before ++ after)) (hreturn : '\r' ∉ cs)
    (hplain : ∀ token ∈ before, ¬IsContinued token.text.toList) :
    ∃ front rest, cs = front ++ rest ∧
      (lexemes (withReturns cs)).map (·.kind) =
        before.map (·.kind) ++ (lexemes (withReturns rest)).map (·.kind) ∧
      (after = [] → rest = []) ∧
      ∀ token ∈ after.head?, token.span.start = start + byteLength front ∧
        ReadsAs rest (some token.kind) token.text.toList := by
  generalize htokens : before ++ after = tokens at h
  induction h generalizing before with
  | nil =>
      obtain ⟨rfl, rfl⟩ := List.append_eq_nil_iff.1 htokens
      exact ⟨[], [], rfl, rfl, fun _ => rfl, by simp⟩
  | @gap start text more tokens hfront _ ih =>
      have hmore : '\r' ∉ more := fun hmem => hreturn (List.mem_append_right text hmem)
      have htext : '\r' ∉ text := fun hmem => hreturn (List.mem_append_left more hmem)
      obtain ⟨front, rest, rfl, hkinds, hnil, hnext⟩ := ih hmore hplain htokens
      refine ⟨text ++ front, rest, (List.append_assoc _ _ _).symm, ?_, hnil, ?_⟩
      · rw [withReturns_append, lexemes_append_of_separates (hfront.separates.withReturns htext),
          hkinds]
      · intro token htoken
        rw [byteLength_append, ← Nat.add_assoc]
        exact hnext token htoken
  | @token start kind text more tokens hfront hrest ih =>
      cases before with
      | nil =>
          refine ⟨[], text ++ more, rfl, rfl, ?_, ?_⟩
          · rintro rfl
            cases htokens
          · rw [List.nil_append] at htokens
            subst htokens
            intro token htoken
            obtain rfl := Option.some.inj htoken
            refine ⟨rfl, ?_⟩
            simpa only [Token.placed, String.toList_ofList] using hfront
      | cons first before =>
          obtain ⟨rfl, hlater⟩ := List.cons.inj htokens
          obtain ⟨hfirst, hbefore⟩ := List.forall_mem_cons.1 hplain
          have hmore : '\r' ∉ more := fun hmem => hreturn (List.mem_append_right text hmem)
          obtain ⟨front, rest, rfl, hkinds, hnil, hnext⟩ := ih hmore hbefore hlater
          obtain ⟨text', rest', hsplit, hreads, hbehind⟩ := hfront.exists_withReturns hreturn
            (by simpa only [Token.placed, String.toList_ofList] using hfirst)
          refine ⟨text ++ front, rest, (List.append_assoc _ _ _).symm, ?_, hnil, ?_⟩
          · rw [hsplit, lexemes_of_readsAs hreads, hbehind.lexemes_eq, List.map_cons, hkinds]
            rfl
          · intro token htoken
            rw [byteLength_append, ← Nat.add_assoc]
            exact hnext token htoken

theorem Unended.exists_newline {quote : Char} {body : List Char} (h : Unended quote body)
    (hline : '\n' ∈ body) : ∃ opened more, body = opened ++ '\\' :: '\n' :: more ∧
      Unended quote opened ∧ '\n' ∉ opened := by
  induction h with
  | nil => cases hline
  | @plain c cs hback hfeed hquote _ ih =>
      obtain ⟨opened, more, rfl, hopened, hnone⟩ := ih (List.mem_of_ne_of_mem hfeed.symm hline)
      exact ⟨c :: opened, more, rfl, .plain hback hfeed hquote hopened, by simp [hfeed.symm, hnone]⟩
  | @escaped c cs _ ih =>
      by_cases hc : c = '\n'
      · subst hc
        exact ⟨[], cs, rfl, .nil, by simp⟩
      · have hmem : '\n' ∈ cs := by simpa [Ne.symm hc] using hline
        obtain ⟨opened, more, rfl, hopened, hnone⟩ := ih hmem
        exact ⟨'\\' :: c :: opened, more, rfl, .escaped hopened, by simp [Ne.symm hc, hnone]⟩

theorem EndsLiteral.exists_newline {quote : Char} {body rest : List Char}
    (h : EndsLiteral quote body rest) (hquote : quote ∈ quotes) (hline : '\n' ∈ body) :
    ∃ opened more, body = opened ++ '\\' :: '\n' :: more ∧ Unended quote opened ∧
      '\n' ∉ opened := by
  have hfeed : '\n' ≠ quote := by
    rcases mem_quotes_iff.1 hquote with rfl | rfl <;> decide
  cases h with
  | @atQuote front _ h =>
      have hfront : '\n' ∈ front := by simpa [hfeed] using hline
      obtain ⟨opened, more, rfl, hopened, hnone⟩ := h.exists_newline hfront
      exact ⟨opened, more ++ [quote], by simp, hopened, hnone⟩
  | atLineFeed h => exact h.exists_newline hline
  | atEnd h => exact h.exists_newline hline
  | @atBackslash front h =>
      have hfront : '\n' ∈ front := by simpa using hline
      obtain ⟨opened, more, rfl, hopened, hnone⟩ := h.exists_newline hfront
      exact ⟨opened, more ++ ['\\'], by simp, hopened, hnone⟩

/-- With a carriage return before it, a line feed behind a backslash ends the literal, and what
was left of that is lexed by itself. -/
theorem ReadsAs.lexemes_withReturns_of_isContinued {text rest : List Char} {kind : TokenKind}
    (h : ReadsAs (text ++ rest) (some kind) text) (hcontinued : IsContinued text) :
    ∃ opened more, text = opened ++ '\\' :: '\n' :: more ∧ '\n' ∉ opened ∧
      lexemes (withReturns (text ++ rest)) =
        ⟨kind, String.ofList (opened ++ ['\\', '\r'])⟩ :: lexemes (withReturns (more ++ rest)) := by
  obtain ⟨hline, encoding, hencoding, quote, hquote, body, rfl⟩ := hcontinued
  obtain ⟨kind', -, hmem⟩ := exists_quotedRule hencoding hquote
  generalize encoding.toList ++ [quote] = opener at h hline hmem ⊢
  have hrule := matchesLongest_of_opensBody hmem rfl rfl (body ++ rest)
  have hopener : '\n' ∉ opener :=
    newline_not_mem_of_matches hmem (Option.some_ne_none kind') hrule.isMatch
  have hbody : '\n' ∈ body := (List.mem_append.1 hline).resolve_left hopener
  have hcut := firstCut_of_matchesLongest hrule
  rw [← List.append_assoc, h.firstCut_eq, Rule.cut, List.append_assoc, List.drop_left] at hcut
  obtain ⟨hkind, hlength⟩ := Cut.mk.inj hcut
  obtain rfl : kind = kind' := Option.some.inj hkind
  have hends := endsLiteral_quotedLength quote (body ++ rest)
  rw [List.length_append, Nat.add_left_cancel_iff] at hlength
  rw [← hlength, List.take_left, List.drop_left] at hends
  obtain ⟨opened, more, rfl, hopened, hnone⟩ := hends.exists_newline hquote hbody
  have hends' : EndsLiteral quote (opened ++ ['\\', '\r']) ('\n' :: withReturns (more ++ rest)) :=
    .atLineFeed (hopened.append (.escaped .nil))
  have hreads := readsAs_body hmem rfl rfl (congrArg some (hends'.quotedLength_eq hquote))
  have hsplit : withReturns (opener ++ (opened ++ '\\' :: '\n' :: more) ++ rest) =
      opener ++ (opened ++ ['\\', '\r'] ++ '\n' :: withReturns (more ++ rest)) := by
    simp [withReturns_of_no_newline hopener, withReturns_of_no_newline hnone, withReturns_cons]
  refine ⟨opener ++ opened, more, by simp, by simp [hopener, hnone], ?_⟩
  rw [← List.append_assoc] at hreads
  rw [hsplit, ← List.append_assoc, lexemes_of_readsAs hreads, lexemes_newline, List.append_assoc]

theorem kinds_eq (source : String) :
    kinds source = (lexemes source.toList).map (·.kind) := by
  rw [kinds, ← map_toLexeme_lex, List.map_map]
  rfl

theorem kinds_returned (source : String) :
    kinds (returned source) = (lexemes (withReturns source.toList)).map (·.kind) := by
  rw [kinds_eq, returned, String.toList_ofList]

/-- A carriage return before each line feed leaves the kinds of all tokens as they are, unless a
literal in quotes goes on over a line feed. Up to the first literal that does, they are the same;
there the literal ends with its line, and what stands behind the line feed is lexed by itself. -/
theorem line_ends_keep_kinds {source : String} (h : '\r' ∉ source.toList) :
    ((∀ token ∈ lex source, ¬IsContinued token.text.toList) →
      kinds (returned source) = kinds source) ∧
    ∀ before token after, lex source = before ++ token :: after →
      (∀ earlier ∈ before, ¬IsContinued earlier.text.toList) → IsContinued token.text.toList →
      ∃ front opened more rest, source.toList = front ++ (token.text.toList ++ rest) ∧
        token.span.start = byteLength front ∧
        token.text.toList = opened ++ '\\' :: '\n' :: more ∧ '\n' ∉ opened ∧
        kinds (returned source) =
          before.map (·.kind) ++ token.kind :: kinds (returned (String.ofList (more ++ rest))) := by
  have hlexes : LexesTo 0 source.toList (lex source) := lexesTo_pieces 0 source.toList
  constructor
  · intro hplain
    rw [← List.append_nil (lex source)] at hlexes
    obtain ⟨front, rest, -, hkinds, hnil, -⟩ := hlexes.kinds_withReturns h hplain
    rw [kinds_returned, hkinds, hnil rfl, withReturns_nil, lexemes_nil, List.map_nil,
      List.append_nil, kinds]
  · intro before token after hlex hplain hcontinued
    rw [hlex] at hlexes
    obtain ⟨front, behind, hsource, hkinds, -, hnext⟩ := hlexes.kinds_withReturns h hplain
    obtain ⟨hstart, hreads⟩ := hnext token rfl
    obtain ⟨rest, rfl⟩ := hreads.isFront
    obtain ⟨opened, more, htext, hnone, hrest⟩ :=
      hreads.lexemes_withReturns_of_isContinued hcontinued
    rw [Nat.zero_add] at hstart
    refine ⟨front, opened, more, rest, hsource, hstart, htext, hnone, ?_⟩
    rw [kinds_returned, kinds_returned, hkinds, hrest, String.toList_ofList, List.map_cons]

/-- The line feeds of the first text are those of a splice, a line comment, a literal that ends
with its line, a raw string and a block comment. In the second a literal goes on over one. -/
theorem line_ends_keep_kinds_up_to_literal :
    let plain := "#if\\\n //(\n'é\nR\"(\n)\"/*\n*/ @\"\\\\\n"
    let continued := "f('a' \"é\\\" \\\n x\"\ny"
    let literal : Token := ⟨⟨.string, "\"é\\\" \\\n x\""⟩, ⟨6, 17⟩⟩
    '\r' ∉ plain.toList ∧ (∀ token ∈ lex plain, ¬IsContinued token.text.toList) ∧
      kinds (returned plain) = kinds plain ∧
      '\r' ∉ continued.toList ∧ lex continued = (lex continued).take 3 ++
        literal :: (lex continued).drop 4 ∧
      (∀ earlier ∈ (lex continued).take 3, ¬IsContinued earlier.text.toList) ∧
      IsContinued literal.text.toList ∧
      ∃ opened more rest, literal.text.toList = opened ++ '\\' :: '\n' :: more ∧
        kinds (returned continued) = [.identifier, .opening .paren, .character] ++
          .string :: kinds (returned (String.ofList (more ++ rest))) := by
  intro plain continued literal
  have hplain : ∀ token ∈ lex plain, ¬IsContinued token.text.toList := by decide +kernel
  have hlex : lex continued = (lex continued).take 3 ++ literal :: (lex continued).drop 4 := by
    decide +kernel
  have hearlier : ∀ earlier ∈ (lex continued).take 3, ¬IsContinued earlier.text.toList := by
    decide +kernel
  have hliteral : IsContinued literal.text.toList := by decide +kernel
  have hkinds : ((lex continued).take 3).map (·.kind) =
      [.identifier, .opening .paren, .character] := by
    decide +kernel
  have hreturn : '\r' ∉ plain.toList := by decide
  have hreturn' : '\r' ∉ continued.toList := by decide
  obtain ⟨front, opened, more, rest, -, -, htext, -, hrest⟩ :=
    (line_ends_keep_kinds hreturn').2 _ literal _ hlex hearlier hliteral
  rw [hkinds] at hrest
  exact ⟨hreturn, hplain, (line_ends_keep_kinds hreturn).1 hplain, hreturn', hlex, hearlier,
    hliteral, opened, more, rest, htext, hrest⟩

/-- A literal that goes on over a line feed does not go on over one with a carriage return. -/
theorem literals_do_not_go_on_over_returns :
    ¬∀ source : String, '\r' ∉ source.toList → kinds (returned source) = kinds source := by
  intro hall
  have hsame := hall "\"a\\\nb\"" (by decide)
  revert hsame
  decide +kernel

end CxxUnits
