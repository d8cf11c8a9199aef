import CxxUnits.Proofs.Token.Lexemes
import CxxUnits.Proofs.Token.Newline

/-!
Lexing lines that are joined by line feeds. A line ends open if its last token would go
on over a line feed, or if it ends in a backslash that a line feed makes a splice. The
lexemes of the joined lines are those of the lines in turn exactly when no line but the
last ends open.
-/
namespace CxxUnits

open Text

/-- A line feed after the text would go into what is cut off its front. -/
def leavesOpen (cs : List Char) : Bool :=
  isHalfSplice cs ||
    match longestMatch cs rules with
    | some (rule, length) => rule.action.isOpen (cs.drop length)
    | none => false

def endsOpen : List Char → Bool
  | [] => false
  | c :: cs => leavesOpen (c :: cs) || endsOpen ((c :: cs).drop (firstCut (c :: cs)).length)
termination_by cs => cs.length
decreasing_by
  have := firstCut_length_pos (c :: cs)
  simp only [List.length_drop, List.length_cons]
  omega

theorem longestMatch_append_newline {c : Char} {cs : List Char} (hc : isGap c = false)
    (hsplice : isHalfSplice (c :: cs) = false) (rest : List Char) :
    longestMatch (c :: cs ++ '\n' :: rest) rules = longestMatch (c :: cs) rules := by
  refine longestMatch_congr ?_
  intro rule hmem
  exact rule.longest_append_newline hmem hc hsplice rest

theorem drop_longestMatch_append {cs : List Char} {rule : Rule} {length : Nat}
    (h : longestMatch cs rules = some (rule, length)) (rest : List Char) :
    (cs ++ rest).drop length = cs.drop length ++ rest := by
  refine List.drop_append_of_le_length ?_
  rw [(longestMatch_mem h).2]
  exact rule.pattern.longest_le cs

theorem firstCut_append_newline {c : Char} {cs : List Char} (hc : isGap c = false)
    (h : leavesOpen (c :: cs) = false) (rest : List Char) :
    firstCut (c :: cs ++ '\n' :: rest) = firstCut (c :: cs) := by
  rw [leavesOpen, Bool.or_eq_false_iff] at h
  have hsame := longestMatch_append_newline hc h.1 rest
  cases hmatch : longestMatch (c :: cs) rules with
  | none => rw [firstCut_of_no_match hmatch, firstCut_of_no_match (hsame.trans hmatch)]
  | some found =>
      obtain ⟨rule, length⟩ := found
      have hclosed : rule.action.isOpen ((c :: cs).drop length) = false := by
        simpa [hmatch] using h.2
      rw [firstCut_of_match hmatch, firstCut_of_match (hsame.trans hmatch), Rule.cut, Rule.cut,
        drop_longestMatch_append hmatch, Action.bodyLength?_append_newline hclosed]

theorem lexemes_append_newline_of_not_leavesOpen {c : Char} {cs : List Char}
    (h : leavesOpen (c :: cs) = false) (rest : List Char) :
    lexemes (c :: cs ++ '\n' :: rest) =
      (Piece.lexeme? ⟨(firstCut (c :: cs)).kind?,
        (c :: cs).take (firstCut (c :: cs)).length⟩).toList ++
        lexemes ((c :: cs).drop (firstCut (c :: cs)).length ++ '\n' :: rest) := by
  cases hc : isGap c with
  | true =>
      have hgap : ∀ d ∈ (c :: cs).takeWhile isGap, isGap d = true := by
        intro d hd
        exact List.all_eq_true.1 List.all_takeWhile d hd
      rw [firstCut_of_isGap hc, drop_length_takeWhile]
      calc
        lexemes (c :: cs ++ '\n' :: rest) =
            lexemes ((c :: cs).takeWhile isGap ++ ((c :: cs).dropWhile isGap ++ '\n' :: rest)) := by
          rw [← List.append_assoc, List.takeWhile_append_dropWhile]
        _ = lexemes ((c :: cs).dropWhile isGap ++ '\n' :: rest) := lexemes_append_of_gap hgap _
  | false =>
      have hlength := firstCut_length_le (List.cons_ne_nil c cs)
      rw [lexemes_of_ne_nil (by simp), firstCut_append_newline hc h,
        List.take_append_of_le_length hlength, List.drop_append_of_le_length hlength]

theorem lexemes_newline (rest : List Char) : lexemes ('\n' :: rest) = lexemes rest := by
  have hgap : ∀ c ∈ ['\n'], isGap c = true := by
    intro c hc
    rw [List.mem_singleton.1 hc]
    rfl
  exact lexemes_append_of_gap hgap rest

theorem lexemes_append_newline {line : List Char} (h : endsOpen line = false)
    (rest : List Char) : lexemes (line ++ '\n' :: rest) = lexemes line ++ lexemes rest := by
  fun_induction endsOpen line with
  | case1 => rw [List.nil_append, lexemes_newline, lexemes_nil, List.nil_append]
  | case2 c cs ih =>
      obtain ⟨hcut, hlater⟩ := Bool.or_eq_false_iff.1 h
      rw [lexemes_append_newline_of_not_leavesOpen hcut, ih hlater,
        lexemes_of_ne_nil (List.cons_ne_nil c cs), List.append_assoc]

theorem lexemes_of_isHalfSplice {line : List Char} (h : isHalfSplice line = true)
    (rest : List Char) :
    (lexemes line).length = 1 ∧ lexemes (line ++ '\n' :: rest) = lexemes rest := by
  rw [isHalfSplice, Bool.or_eq_true, beq_iff_eq, beq_iff_eq] at h
  obtain rfl | rfl := h
  · refine ⟨by decide +kernel, ?_⟩
    exact lexemes_of_skip (by simp) (firstCut_splice rest)
  · refine ⟨by decide +kernel, ?_⟩
    exact lexemes_of_skip (by simp) (firstCut_splice_return rest)

theorem exists_newline_of_isOpen {c : Char} {cs : List Char} {rule : Rule} {length : Nat}
    (hsplice : isHalfSplice (c :: cs) = false)
    (hmatch : longestMatch (c :: cs) rules = some (rule, length))
    (hopen : rule.action.isOpen ((c :: cs).drop length) = true) (rest : List Char) :
    ∃ lexeme ∈ lexemes (c :: cs ++ '\n' :: rest), '\n' ∈ lexeme.text.toList := by
  cases hc : isGap c with
  | true =>
      rw [longestMatch_of_isGap hc] at hmatch
      cases hmatch
      cases hopen
  | false =>
      obtain ⟨kind, hkind⟩ := Action.exists_kind_of_isOpen hopen
      obtain ⟨body, hbody, hlong⟩ := Action.length_lt_bodyLength? hopen rest
      have hcut : firstCut (c :: cs ++ '\n' :: rest) = ⟨some kind, length + body⟩ := by
        rw [firstCut_of_match ((longestMatch_append_newline hc hsplice rest).trans hmatch),
          Rule.cut, drop_longestMatch_append hmatch, hbody, hkind]
      refine ⟨_, by rw [lexemes_of_token (by simp) hcut]; exact List.mem_cons_self, ?_⟩
      obtain ⟨extra, hextra⟩ : ∃ extra, length + body - (c :: cs).length = extra + 1 := by
        rw [List.length_drop] at hlong
        exact ⟨length + body - (c :: cs).length - 1, by omega⟩
      rw [String.toList_ofList, List.take_append, hextra, List.take_succ_cons]
      exact List.mem_append_right _ List.mem_cons_self

/-- A token goes on over the line feed, or the line loses a token if it ends open. -/
theorem newline_or_front (line rest : List Char) :
    (∃ lexeme ∈ lexemes (line ++ '\n' :: rest), '\n' ∈ lexeme.text.toList) ∨
      ∃ front, lexemes (line ++ '\n' :: rest) = front ++ lexemes rest ∧
        front.length + (endsOpen line).toNat = (lexemes line).length := by
  fun_induction endsOpen line with
  | case1 => exact .inr ⟨[], lexemes_newline rest, by simp⟩
  | case2 c cs ih =>
      cases hsplice : isHalfSplice (c :: cs) with
      | true =>
          obtain ⟨hone, hjoined⟩ := lexemes_of_isHalfSplice hsplice rest
          exact .inr ⟨[], hjoined, by simp [leavesOpen, hsplice, hone]⟩
      | false =>
          cases hcut : leavesOpen (c :: cs) with
          | true =>
              left
              cases hmatch : longestMatch (c :: cs) rules with
              | none => simp [leavesOpen, hsplice, hmatch] at hcut
              | some found =>
                  have hopen : found.1.action.isOpen ((c :: cs).drop found.2) = true := by
                    simpa [leavesOpen, hsplice, hmatch] using hcut
                  exact exists_newline_of_isOpen hsplice hmatch hopen rest
          | false =>
              rw [lexemes_append_newline_of_not_leavesOpen hcut,
                lexemes_of_ne_nil (List.cons_ne_nil c cs), Bool.false_or]
              cases ih with
              | inl hnewline =>
                  obtain ⟨lexeme, hmem, hnewline⟩ := hnewline
                  exact .inl ⟨lexeme, List.mem_append_right _ hmem, hnewline⟩
              | inr hfront =>
                  obtain ⟨front, hjoined, hlength⟩ := hfront
                  refine .inr ⟨_ ++ front, by rw [hjoined, List.append_assoc], ?_⟩
                  rw [List.length_append, List.length_append, Nat.add_assoc, hlength]

theorem intercalate_cons_cons (line next : List Char) (later : List (List Char)) :
    ['\n'].intercalate (line :: next :: later) =
      line ++ '\n' :: ['\n'].intercalate (next :: later) := by
  rw [List.intercalate_cons_cons, List.append_assoc, List.singleton_append]

theorem lexemes_intercalate {lines : List (List Char)}
    (h : ∀ line ∈ lines.dropLast, endsOpen line = false) :
    lexemes (['\n'].intercalate lines) = lines.flatMap lexemes := by
  induction lines with
  | nil => exact lexemes_nil
  | cons line later ih =>
      cases later with
      | nil => simp
      | cons next later =>
          have hline : endsOpen line = false := h line (by simp)
          have hlater : ∀ line ∈ (next :: later).dropLast, endsOpen line = false := by
            intro other hother
            exact h other (by simp [hother])
          rw [intercalate_cons_cons, lexemes_append_newline hline, ih hlater]
          rfl

/-- Each line but the last that ends open loses a token, unless one goes on over a line
feed. -/
theorem newline_or_length_intercalate (lines : List (List Char)) :
    (∃ lexeme ∈ lexemes (['\n'].intercalate lines), '\n' ∈ lexeme.text.toList) ∨
      (lexemes (['\n'].intercalate lines)).length + lines.dropLast.countP endsOpen =
        (lines.flatMap lexemes).length := by
  induction lines with
  | nil => simp
  | cons line later ih =>
      cases later with
      | nil => simp
      | cons next later =>
          rw [intercalate_cons_cons]
          cases newline_or_front line (['\n'].intercalate (next :: later)) with
          | inl hnewline => exact .inl hnewline
          | inr hfront =>
              obtain ⟨front, hjoined, hlength⟩ := hfront
              rw [hjoined]
              cases ih with
              | inl hnewline =>
                  obtain ⟨lexeme, hmem, hnewline⟩ := hnewline
                  exact .inl ⟨lexeme, List.mem_append_right _ hmem, hnewline⟩
              | inr hlater =>
                  right
                  have hcount : (line :: next :: later).dropLast.countP endsOpen =
                      (next :: later).dropLast.countP endsOpen + (endsOpen line).toNat := by
                    rw [List.dropLast_cons_cons, List.countP_cons]
                    cases endsOpen line <;> rfl
                  rw [hcount, List.length_append, List.flatMap_cons, List.length_append]
                  omega

/-- Joined lines without a line feed of their own lex as the lines do exactly when no line
but the last ends open. -/
theorem lexemes_intercalate_eq_iff {lines : List (List Char)} (h : ∀ line ∈ lines, '\n' ∉ line) :
    lexemes (['\n'].intercalate lines) = lines.flatMap lexemes ↔
      ∀ line ∈ lines.dropLast, endsOpen line = false := by
  refine ⟨?_, lexemes_intercalate⟩
  intro hsame
  cases newline_or_length_intercalate lines with
  | inl hnewline =>
      obtain ⟨lexeme, hmem, hnewline⟩ := hnewline
      rw [hsame] at hmem
      obtain ⟨line, hline, hlexeme⟩ := List.mem_flatMap.1 hmem
      exact absurd (subset_of_mem_lexemes hlexeme '\n' hnewline) (h line hline)
  | inr hlength =>
      rw [hsame] at hlength
      have hnone : lines.dropLast.countP endsOpen = 0 := by omega
      intro line hline
      simpa using List.countP_eq_zero.1 hnone line hline

end CxxUnits
