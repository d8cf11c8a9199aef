import CxxUnits.Proofs.Token.Match
import CxxUnits.Token.Fragment

/-!
The lexemes of a text: its tokens without their places. They are read off the pieces
one by one, white space between them counts for nothing however it is cut, and what a
fragment lexer holds for a fragment are the lexemes that are no comments.
-/
namespace CxxUnits

open Text

def Piece.lexeme? (piece : Piece) : Option Lexeme :=
  piece.kind?.map fun kind => ⟨kind, String.ofList piece.text⟩

/-- The kinds and spellings of all tokens of a text, comments included. -/
def lexemes (cs : List Char) : List Lexeme :=
  (pieces cs).filterMap Piece.lexeme?

/-- The token whose text begins at byte `start`. -/
def Token.placed (start : Nat) (kind : TokenKind) (text : List Char) : Token :=
  ⟨⟨kind, String.ofList text⟩, ⟨start, start + byteLength text⟩⟩

theorem tokensFrom_cons (start : Nat) (piece : Piece) (ps : List Piece) :
    tokensFrom start (piece :: ps) =
      (piece.kind?.map fun kind => Token.placed start kind piece.text).toList ++
        tokensFrom (start + byteLength piece.text) ps := by
  obtain ⟨kind?, text⟩ := piece
  cases kind? <;> rfl

/-- The token in a text with so many bytes more in front. -/
def Token.shift (offset : Nat) (token : Token) : Token :=
  { token with span := ⟨offset + token.span.start, offset + token.span.stop⟩ }

theorem tokensFrom_add (offset start : Nat) (ps : List Piece) :
    tokensFrom (offset + start) ps = (tokensFrom start ps).map (Token.shift offset) := by
  induction ps generalizing start with
  | nil => rfl
  | cons piece rest ih =>
      rw [tokensFrom_cons, tokensFrom_cons, List.map_append, Nat.add_assoc, ih]
      cases piece.kind? with
      | none => rfl
      | some kind => simp [Token.placed, Token.shift, Nat.add_assoc]

theorem lex_empty : lex "" = [] := by
  simp [lex, tokensFrom]

theorem tokensFrom_pieces (start : Nat) (source : String) :
    tokensFrom start (pieces source.toList) = (lex source).map (Token.shift start) :=
  tokensFrom_add start 0 _

theorem tokensFrom_of_firstCut {text rest : List Char} {kind? : Option TokenKind}
    (hne : text ≠ []) (hcut : firstCut (text ++ rest) = ⟨kind?, text.length⟩) (start : Nat) :
    tokensFrom start (pieces (text ++ rest)) =
      (kind?.map fun kind => Token.placed start kind text).toList ++
        tokensFrom (start + byteLength text) (pieces rest) := by
  rw [pieces_of_ne_nil (List.append_ne_nil_of_left_ne_nil hne rest), hcut, List.take_left,
    List.drop_left, tokensFrom_cons]

theorem map_toLexeme_tokensFrom (start : Nat) (ps : List Piece) :
    (tokensFrom start ps).map Token.toLexeme = ps.filterMap Piece.lexeme? := by
  induction ps generalizing start with
  | nil => rfl
  | cons piece rest ih =>
      cases hkind : piece.kind? with
      | none => simp [tokensFrom, Piece.lexeme?, hkind, ih]
      | some kind => simp [tokensFrom, Piece.lexeme?, hkind, ih]

theorem map_toLexeme_lex (source : String) :
    (lex source).map Token.toLexeme = lexemes source.toList :=
  map_toLexeme_tokensFrom 0 _

def Lexeme.identifier? (lexeme : Lexeme) : Option String :=
  if lexeme.kind = .identifier then some lexeme.text else none

theorem identifiers_eq (source : String) :
    identifiers source = (lexemes source.toList).filterMap Lexeme.identifier? := by
  rw [← map_toLexeme_lex, List.filterMap_map]
  rfl

theorem identifiers_eq_of_not_comment (source : String) :
    identifiers source =
      ((lexemes source.toList).filter (·.kind ≠ .comment)).filterMap Lexeme.identifier? := by
  rw [identifiers_eq, List.filterMap_filter]
  congr 1
  funext lexeme
  by_cases hkind : lexeme.kind = .comment
  · simp [Lexeme.identifier?, hkind]
  · simp [hkind]

@[simp] theorem lexemes_nil : lexemes [] = [] := by
  simp [lexemes]

theorem lexemes_of_ne_nil {cs : List Char} (h : cs ≠ []) :
    lexemes cs =
      (Piece.lexeme? ⟨(firstCut cs).kind?, cs.take (firstCut cs).length⟩).toList ++
        lexemes (cs.drop (firstCut cs).length) := by
  rw [lexemes, pieces_of_ne_nil h, List.filterMap_cons]
  cases Piece.lexeme? ⟨(firstCut cs).kind?, cs.take (firstCut cs).length⟩ <;> rfl

theorem lexemes_of_skip {cs : List Char} {n : Nat} (h : cs ≠ [])
    (hcut : firstCut cs = ⟨none, n⟩) : lexemes cs = lexemes (cs.drop n) := by
  rw [lexemes_of_ne_nil h, hcut]
  rfl

theorem lexemes_of_token {cs : List Char} {kind : TokenKind} {n : Nat} (h : cs ≠ [])
    (hcut : firstCut cs = ⟨some kind, n⟩) :
    lexemes cs = ⟨kind, String.ofList (cs.take n)⟩ :: lexemes (cs.drop n) := by
  rw [lexemes_of_ne_nil h, hcut]
  rfl

theorem drop_length_takeWhile (p : Char → Bool) (cs : List Char) :
    cs.drop (cs.takeWhile p).length = cs.dropWhile p := by
  induction cs with
  | nil => rfl
  | cons c cs ih =>
      cases hc : p c with
      | true => simpa [hc] using ih
      | false => simp [hc]

theorem lexemes_dropWhile (cs : List Char) : lexemes (cs.dropWhile isGap) = lexemes cs := by
  cases cs with
  | nil => rfl
  | cons c cs =>
      cases hc : isGap c with
      | false => rw [List.dropWhile_cons_of_neg (by simp [hc])]
      | true =>
          rw [lexemes_of_skip (by simp) (firstCut_of_isGap hc cs), drop_length_takeWhile]

theorem lexemes_append_of_gap {gap : List Char} (h : ∀ c ∈ gap, isGap c = true)
    (cs : List Char) : lexemes (gap ++ cs) = lexemes cs := by
  rw [← lexemes_dropWhile (gap ++ cs), List.dropWhile_append_of_pos h, lexemes_dropWhile]

theorem subset_of_mem_lexemes {cs : List Char} {lexeme : Lexeme} (h : lexeme ∈ lexemes cs) :
    ∀ c ∈ lexeme.text.toList, c ∈ cs := by
  obtain ⟨piece, hpiece, hlexeme⟩ := List.mem_filterMap.1 h
  obtain ⟨kind, -, rfl⟩ := Option.map_eq_some_iff.1 hlexeme
  intro c hc
  rw [← flatMap_text_pieces cs]
  exact List.mem_flatMap.2 ⟨piece, hpiece, by simpa using hc⟩

theorem kind_firstCut_ne_endOfInput (cs : List Char) :
    (firstCut cs).kind? ≠ some .endOfInput := by
  cases hmatch : longestMatch cs rules with
  | none =>
      rw [firstCut_of_no_match hmatch]
      simp
  | some found =>
      obtain ⟨rule, length⟩ := found
      rw [firstCut_of_match hmatch, Rule.cut]
      cases rule.action.bodyLength? (cs.drop length) with
      | none => simp
      | some body => exact kind?_ne_endOfInput (longestMatch_mem hmatch).1

theorem kind_ne_endOfInput_of_mem_lexemes {cs : List Char} {lexeme : Lexeme}
    (h : lexeme ∈ lexemes cs) : lexeme.kind ≠ .endOfInput := by
  obtain ⟨piece, hpiece, hlexeme⟩ := List.mem_filterMap.1 h
  obtain ⟨kind, hkind, rfl⟩ := Option.map_eq_some_iff.1 hlexeme
  have hall : ∀ cs, ∀ piece ∈ pieces cs, piece.kind? ≠ some .endOfInput := by
    intro cs
    fun_induction pieces cs with
    | case1 => simp
    | case2 c cs cut ih =>
        intro piece hpiece
        cases hpiece with
        | head => exact kind_firstCut_ne_endOfInput _
        | tail _ hpiece => exact ih piece hpiece
  intro hend
  exact hall cs piece hpiece (by rw [hkind]; exact congrArg some hend)

namespace FragmentLexer

theorem upcoming_eq (lexer : FragmentLexer)
    (h : ∀ token ∈ lexer.pending, token.kind ≠ .endOfInput) :
    TokenSource.upcoming lexer = lexer.pending.map (·.toLexeme) := by
  obtain ⟨fragments, pending, current⟩ := lexer
  induction pending with
  | nil => exact TokenSource.upcoming_of_end rfl
  | cons token rest ih =>
      have hrest := ih fun other hother => h other (List.mem_cons_of_mem _ hother)
      rw [TokenSource.upcoming_of_not_end (h token List.mem_cons_self), List.map_cons]
      exact congrArg (token.toLexeme :: ·) hrest

/-- What the lexer holds for a fragment depends on nothing it was given before. -/
theorem upcoming_enter (lexer : FragmentLexer) (fragment : String) :
    TokenSource.upcoming (TokenSource.enter lexer fragment) =
      (lexemes fragment.toList).filter (·.kind ≠ .comment) := by
  have hpending : ∀ token ∈ (lexer.enter fragment).pending, token.kind ≠ .endOfInput := by
    intro token htoken
    obtain ⟨lexed, hlexed, rfl⟩ := List.mem_map.1 htoken
    have hmem : lexed.toLexeme ∈ lexemes fragment.toList := by
      rw [← map_toLexeme_lex]
      exact List.mem_map.2 ⟨lexed, (List.mem_filter.1 hlexed).1, rfl⟩
    exact kind_ne_endOfInput_of_mem_lexemes hmem
  have hupcoming := upcoming_eq (lexer.enter fragment) hpending
  rw [← map_toLexeme_lex, List.filter_map]
  exact hupcoming.trans List.map_map

end FragmentLexer

end CxxUnits
