import CxxUnits.Proofs.Token.Opener
import CxxUnits.Proofs.Token.Tiling

/-!
Where a raw string ends. Its delimiter is what stands between the opening quote and the first
parenthesis, and the string goes on to the first place where the delimiter stands between a
parenthesis and a quote, or to the end of the text. A body may hold any front of that mark:
since the parenthesis is no part of the delimiter, no two places for the mark overlap. Without
a delimiter what opens the string is a token of its own, and lexing goes on right behind it.
-/
namespace CxxUnits

open Text

/-- The text can stand between the quote and the parenthesis that open a raw string. -/
structure Delimits (delimiter : List Char) : Prop where
  size : byteLength delimiter ≤ 16
  plain : ∀ c ∈ delimiter, isBlank c = false ∧ c ≠ '\\' ∧ c ≠ '(' ∧ c ≠ ')' ∧ c ≠ '"'

/-- The text has no parenthesis, or what stands before its first one cannot delimit. -/
inductive LacksDelimiter : List Char → Prop
  | noParen {text : List Char} (hparen : '(' ∉ text) : LacksDelimiter text
  | tooLong {front rest : List Char} (hparen : '(' ∉ front) (hsize : 16 < byteLength front) :
      LacksDelimiter (front ++ '(' :: rest)
  | broken {front rest : List Char} {c : Char} (hparen : '(' ∉ front) (hmem : c ∈ front)
      (hc : isBlank c = true ∨ c = '\\' ∨ c = ')' ∨ c = '"') :
      LacksDelimiter (front ++ '(' :: rest)

namespace Delimits

variable {delimiter : List Char}

theorem isRawDelimiter (h : Delimits delimiter) : isRawDelimiter delimiter = true := by
  simp only [CxxUnits.isRawDelimiter, Bool.and_eq_true, decide_eq_true_eq, List.all_eq_true]
  refine ⟨h.size, ?_⟩
  intro c hc
  obtain ⟨hblank, hback, -, hparen, hquote⟩ := h.plain c hc
  simp [hblank, hback, hparen, hquote]

theorem paren_not_mem (h : Delimits delimiter) : '(' ∉ delimiter :=
  fun hmem => (h.plain '(' hmem).2.2.1 rfl

/-- The mark that ends the string cannot overlap itself. -/
theorem paren_not_mem_tail (h : Delimits delimiter) : ')' ∉ delimiter ++ ['"'] := by
  intro hmem
  cases List.mem_append.1 hmem with
  | inl hmem => exact (h.plain ')' hmem).2.2.2.1 rfl
  | inr hmem => simp at hmem

end Delimits

theorem LacksDelimiter.rawLength?_eq_none {text : List Char} (h : LacksDelimiter text) :
    rawLength? text = none := by
  cases h with
  | noParen hparen => exact rawLength?_of_no_paren hparen
  | @tooLong front rest hparen hsize =>
      have hraw : ¬isRawDelimiter front = true := by
        simp [isRawDelimiter, Nat.not_le.2 hsize]
      rw [rawLength?_of_paren hparen, if_neg hraw]
  | @broken front rest c hparen hmem hc =>
      have hraw : ¬isRawDelimiter front = true := by
        intro hraw
        simp only [isRawDelimiter, Bool.and_eq_true, List.all_eq_true] at hraw
        have hplain := hraw.2 c hmem
        rcases hc with hblank | rfl | rfl | rfl
        · simp [hblank] at hplain
        · simp at hplain
        · simp at hplain
        · simp at hplain
      rw [rawLength?_of_paren hparen, if_neg hraw]

theorem endAfter_of_not_contains {mark cs : List Char} (h : ¬mark <:+: cs) :
    endAfter mark cs = cs.length := by
  induction cs with
  | nil => rfl
  | cons c cs ih =>
      rw [List.infix_cons_iff, not_or, ← List.isPrefixOf_iff_prefix] at h
      rw [endAfter, if_neg h.1, ih h.2, List.length_cons]

/-- The delimiter, its parenthesis and the body belong to the string, and so does the mark
that ends it. -/
theorem rawLength?_of_ended {delimiter body : List Char} (hdelimiter : Delimits delimiter)
    (hbody : ¬rawTerminator delimiter <:+: body) (rest : List Char) :
    rawLength? (delimiter ++ '(' :: (body ++ rawTerminator delimiter) ++ rest) =
      some (delimiter ++ '(' :: (body ++ rawTerminator delimiter)).length := by
  have hend : endAfter (rawTerminator delimiter) (body ++ (rawTerminator delimiter ++ rest)) =
      body.length + (rawTerminator delimiter).length :=
    endAfter_append_mark hdelimiter.paren_not_mem_tail hbody rest
  rw [List.append_assoc, List.cons_append, List.append_assoc,
    rawLength?_of_paren hdelimiter.paren_not_mem, if_pos hdelimiter.isRawDelimiter, hend]
  simp only [List.length_append, List.length_cons]
  congr 1
  omega

theorem rawLength?_of_not_ended {delimiter body : List Char} (hdelimiter : Delimits delimiter)
    (hbody : ¬rawTerminator delimiter <:+: body) :
    rawLength? (delimiter ++ '(' :: body) = some (delimiter ++ '(' :: body).length := by
  rw [rawLength?_of_paren hdelimiter.paren_not_mem, if_pos hdelimiter.isRawDelimiter,
    endAfter_of_not_contains hbody]
  simp only [List.length_append, List.length_cons]
  congr 1
  omega

theorem rawStringRule_mem {encoding : String} (h : encoding ∈ encodings) :
    Rule.spelled (encoding ++ "R\"") .rawString ∈ rules := by
  revert encoding
  decide +kernel

theorem lex_of_readsAs {text rest : String} {kind : TokenKind}
    (h : ReadsAs (text.toList ++ rest.toList) (some kind) text.toList) :
    lex (text ++ rest) =
      ⟨⟨kind, text⟩, ⟨0, text.utf8ByteSize⟩⟩ ::
        (lex rest).map (Token.shift text.utf8ByteSize) := by
  rw [lex, String.toList_append, tokensFrom_of_firstCut h.ne_nil h.firstCut_eq,
    tokensFrom_pieces, byteLength_toList, Nat.zero_add]
  simp [Token.placed, byteLength_toList]

/-- A body after what opens a raw string is part of the token that begins there. -/
theorem lex_rawString {encoding body rest : String} (hencoding : encoding ∈ encodings)
    (hbody : rawLength? (body.toList ++ rest.toList) = some body.toList.length) :
    lex (encoding ++ "R\"" ++ body ++ rest) =
      ⟨⟨.string, encoding ++ "R\"" ++ body⟩, ⟨0, (encoding ++ "R\"" ++ body).utf8ByteSize⟩⟩ ::
        (lex rest).map (Token.shift (encoding ++ "R\"" ++ body).utf8ByteSize) := by
  have hreads := readsAs_body (rawStringRule_mem hencoding) rfl rfl hbody
  apply lex_of_readsAs
  rw [String.toList_append, List.append_assoc]
  exact hreads

theorem lex_rejected {encoding rest : String} (hencoding : encoding ∈ encodings)
    (hrest : rawLength? rest.toList = none) :
    lex (encoding ++ "R\"" ++ rest) =
      ⟨⟨.unknown, encoding ++ "R\""⟩, ⟨0, (encoding ++ "R\"").utf8ByteSize⟩⟩ ::
        (lex rest).map (Token.shift (encoding ++ "R\"").utf8ByteSize) := by
  have hrule := matchesLongest_of_opensBody (rawStringRule_mem hencoding) rfl rfl rest.toList
  exact lex_of_readsAs (.rejected hrule rfl hrest)

/-- A raw string ends right after the first mark made of its delimiter, or with the text if
there is none. Where no delimiter stands before the first parenthesis, what would open the
string is a token of unknown kind, and what follows lexes as it does by itself. -/
theorem raw_strings_end_at_their_delimiter {encoding : String} (hencoding : encoding ∈ encodings) :
    let opener := encoding ++ "R\""
    (∀ delimiter body rest : String, Delimits delimiter.toList →
      ¬(")" ++ delimiter ++ "\"").toList <:+: body.toList →
        let literal := opener ++ delimiter ++ "(" ++ body ++ ")" ++ delimiter ++ "\""
        lex (literal ++ rest) = ⟨⟨.string, literal⟩, ⟨0, literal.utf8ByteSize⟩⟩ ::
          (lex rest).map (Token.shift literal.utf8ByteSize)) ∧
    (∀ delimiter body : String, Delimits delimiter.toList →
      ¬(")" ++ delimiter ++ "\"").toList <:+: body.toList →
        let literal := opener ++ delimiter ++ "(" ++ body
        lex literal = [⟨⟨.string, literal⟩, ⟨0, literal.utf8ByteSize⟩⟩]) ∧
    ∀ rest : String, LacksDelimiter rest.toList →
      lex (opener ++ rest) = ⟨⟨.unknown, opener⟩, ⟨0, opener.utf8ByteSize⟩⟩ ::
        (lex rest).map (Token.shift opener.utf8ByteSize) := by
  intro opener
  have hmark : ∀ delimiter : String,
      (")" ++ delimiter ++ "\"").toList = rawTerminator delimiter.toList := by
    intro delimiter
    simp [rawTerminator]
  refine ⟨?_, ?_, ?_⟩
  · intro delimiter body rest hdelimiter hbody literal
    rw [hmark] at hbody
    have hliteral : literal =
        opener ++ (delimiter ++ "(" ++ body ++ ")" ++ delimiter ++ "\"") := by
      simp [literal, String.append_assoc]
    rw [hliteral]
    apply lex_rawString hencoding
    have hlength := rawLength?_of_ended hdelimiter hbody rest.toList
    simpa [rawTerminator] using hlength
  · intro delimiter body hdelimiter hbody literal
    rw [hmark] at hbody
    have hliteral : literal = opener ++ (delimiter ++ "(" ++ body) := by
      simp [literal, String.append_assoc]
    have hlength : rawLength? ((delimiter ++ "(" ++ body).toList ++ "".toList) =
        some (delimiter ++ "(" ++ body).toList.length := by
      simpa using rawLength?_of_not_ended hdelimiter hbody
    have hlex := lex_rawString hencoding hlength
    rw [String.append_empty, lex_empty] at hlex
    rw [hliteral]
    exact hlex
  · intro rest hrest
    exact lex_rejected hencoding hrest.rawLength?_eq_none

/-- The body has two fronts of the mark in it, and each character of the delimiter has more
bytes than one. -/
theorem raw_strings_end_at_their_delimiter_behind_fronts :
    let opener := "u8" ++ "R\""
    let literal := opener ++ "éß" ++ "(" ++ ")é)éß" ++ ")" ++ "éß" ++ "\""
    "u8" ∈ encodings ∧ Delimits "éß".toList ∧
      ¬(")" ++ "éß" ++ "\"").toList <:+: ")é)éß".toList ∧ LacksDelimiter "éß)(\"".toList ∧
      lex (literal ++ ")") = ⟨⟨.string, literal⟩, ⟨0, 23⟩⟩ ::
        (lex ")").map (Token.shift 23) ∧
      lex (opener ++ "éß" ++ "(" ++ ")é)éß") =
        [⟨⟨.string, opener ++ "éß" ++ "(" ++ ")é)éß"⟩, ⟨0, 17⟩⟩] ∧
      lex (opener ++ "éß)(\"") = ⟨⟨.unknown, opener⟩, ⟨0, 4⟩⟩ ::
        (lex "éß)(\"").map (Token.shift 4) := by
  intro opener literal
  have hencoding : "u8" ∈ encodings := by decide
  have hdelimiter : Delimits "éß".toList := ⟨by decide +kernel, by simp [isBlank]⟩
  have hbody : ¬(")" ++ "éß" ++ "\"").toList <:+: ")é)éß".toList := by
    intro hfound
    have hmem : '"' ∈ (")" ++ "éß" ++ "\"").toList := by simp
    exact absurd (hfound.subset hmem) (by decide)
  have hparen : '(' ∉ "éß)".toList := by decide +kernel
  have hmem : ')' ∈ "éß)".toList := by decide +kernel
  have hlacks : LacksDelimiter "éß)(\"".toList := .broken hparen hmem (by simp)
  obtain ⟨hended, hopen, hrejected⟩ := raw_strings_end_at_their_delimiter hencoding
  exact ⟨hencoding, hdelimiter, hbody, hlacks, hended "éß" ")é)éß" ")" hdelimiter hbody,
    hopen "éß" ")é)éß" hdelimiter hbody, hrejected "éß)(\"" hlacks⟩

end CxxUnits
