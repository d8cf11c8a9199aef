import CxxUnits.Token.Rule

/-!
Cutting a text into pieces, each of them a token or a gap, and reading the
tokens off with their places. The pieces of a text put together again are the
text. A rule with a longer match wins, and where no rule matches one character
is a token of unknown kind.
-/
namespace CxxUnits

open Text

/-- The first rule among those whose match at the front of `cs` is longest,
with the length of that match. -/
def longestMatch (cs : List Char) : List Rule → Option (Rule × Nat)
  | [] => none
  | rule :: rest =>
    let length := rule.pattern.longest cs
    match longestMatch cs rest with
    | some (other, longer) => if longer ≤ length then some (rule, length) else some (other, longer)
    | none => if length = 0 then none else some (rule, length)

/-- What the front of a text is cut into: so many characters, of this kind if
they are a token. -/
structure Cut where
  kind? : Option TokenKind
  length : Nat
  deriving DecidableEq

/-- The cut a rule makes after a match of `length` characters. A token with a
malformed body is unknown and keeps only what opened it. -/
def Rule.cut (rule : Rule) (length : Nat) (cs : List Char) : Cut :=
  match rule.action.bodyLength? (cs.drop length) with
  | some body => ⟨rule.action.kind?, length + body⟩
  | none => ⟨some .unknown, length⟩

def firstCut (cs : List Char) : Cut :=
  match longestMatch cs rules with
  | some (rule, length) => rule.cut length cs
  | none => ⟨some .unknown, 1⟩

/-- A stretch of text: a token of the given kind, or a gap. -/
structure Piece where
  kind? : Option TokenKind
  text : List Char
  deriving DecidableEq

theorem longestMatch_pos {cs : List Char} {rs : List Rule} {rule : Rule} {length : Nat}
    (h : longestMatch cs rs = some (rule, length)) : 0 < length := by
  induction rs generalizing rule length with
  | nil => simp [longestMatch] at h
  | cons r rest ih =>
      simp only [longestMatch] at h
      split at h
      · next other longer hrest =>
        have := ih hrest
        split at h
        · obtain ⟨-, rfl⟩ := Prod.mk.inj (Option.some.inj h)
          omega
        · obtain ⟨-, rfl⟩ := Prod.mk.inj (Option.some.inj h)
          omega
      · split at h
        · simp at h
        · obtain ⟨-, rfl⟩ := Prod.mk.inj (Option.some.inj h)
          omega

theorem longestMatch_mem {cs : List Char} {rs : List Rule} {rule : Rule} {length : Nat}
    (h : longestMatch cs rs = some (rule, length)) :
    rule ∈ rs ∧ length = rule.pattern.longest cs := by
  induction rs generalizing rule length with
  | nil => simp [longestMatch] at h
  | cons r rest ih =>
      simp only [longestMatch] at h
      split at h
      · next other longer hrest =>
        split at h
        · obtain ⟨rfl, rfl⟩ := Prod.mk.inj (Option.some.inj h)
          simp
        · obtain ⟨rfl, rfl⟩ := Prod.mk.inj (Option.some.inj h)
          exact ⟨List.mem_cons_of_mem _ (ih hrest).1, (ih hrest).2⟩
      · split at h
        · simp at h
        · obtain ⟨rfl, rfl⟩ := Prod.mk.inj (Option.some.inj h)
          simp

theorem firstCut_length_pos (cs : List Char) : 0 < (firstCut cs).length := by
  unfold firstCut
  split
  · next h =>
    have := longestMatch_pos h
    unfold Rule.cut
    split <;> simp only <;> omega
  · simp

theorem firstCut_length_le {cs : List Char} (h : cs ≠ []) :
    (firstCut cs).length ≤ cs.length := by
  unfold firstCut
  split
  · next rule length hmatch =>
    have hlen := Pattern.longest_le rule.pattern cs
    rw [← (longestMatch_mem hmatch).2] at hlen
    unfold Rule.cut
    split
    · next body hbody =>
      have := Action.bodyLength?_le hbody
      simp only [List.length_drop] at this ⊢
      omega
    · exact hlen
  · exact List.length_pos_iff.2 h

def pieces : List Char → List Piece
  | [] => []
  | c :: cs =>
    let cut := firstCut (c :: cs)
    ⟨cut.kind?, (c :: cs).take cut.length⟩ :: pieces ((c :: cs).drop cut.length)
termination_by cs => cs.length
decreasing_by
  have := firstCut_length_pos (c :: cs)
  simp only [List.length_drop, List.length_cons]
  omega

/-- The tokens among the pieces, the first of which begins at byte `start`. -/
def tokensFrom (start : Nat) : List Piece → List Token
  | [] => []
  | piece :: rest =>
    let stop := start + byteLength piece.text
    match piece.kind? with
    | some kind => ⟨⟨kind, String.ofList piece.text⟩, ⟨start, stop⟩⟩ :: tokensFrom stop rest
    | none => tokensFrom stop rest

/-- All tokens of a text, comments included. -/
def lex (source : String) : List Token :=
  tokensFrom 0 (pieces source.toList)

/-- The texts of the identifiers of a text, in order, repeats kept. -/
def identifiers (source : String) : List String :=
  (lex source).filterMap fun token =>
    if token.kind = .identifier then some token.text else none

@[simp] theorem pieces_nil : pieces [] = [] := by
  rw [pieces]

theorem pieces_of_ne_nil {cs : List Char} (h : cs ≠ []) :
    pieces cs = ⟨(firstCut cs).kind?, cs.take (firstCut cs).length⟩ ::
      pieces (cs.drop (firstCut cs).length) := by
  cases cs with
  | nil => contradiction
  | cons c cs => rw [pieces]

theorem flatMap_text_pieces (cs : List Char) : (pieces cs).flatMap Piece.text = cs := by
  fun_induction pieces cs with
  | case1 => rfl
  | case2 c cs cut ih => rw [List.flatMap_cons, ih, List.take_append_drop]

end CxxUnits
