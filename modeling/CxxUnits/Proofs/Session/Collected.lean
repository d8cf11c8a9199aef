import CxxUnits.Proofs.Session.Run
import CxxUnits.Token.Fragment

/-!
The lines of a turn and its text. A turn holds the lines fed since the last one ended,
joined by line feeds, and every text that a session hands back is that of such lines. The
line feed is left out only in front of the first line, since that is never blank: a blank
line outside a turn is not collected at all.
-/
namespace CxxUnits

open Text

def joinedText (lines : List HeldLine) : String :=
  "\n".intercalate (lines.map HeldLine.text)

theorem joinedText_concat {lines : List HeldLine} (h : lines ≠ []) (line : HeldLine) :
    joinedText (lines ++ [line]) = joinedText lines ++ "\n" ++ line.text := by
  have hmap : lines.map HeldLine.text ≠ [] := by
    simpa using h
  rw [joinedText, joinedText, List.map_append,
    String.intercalate_append_of_ne_nil hmap (by simp)]
  simp

namespace Session

variable {σ : Type}

/-- The open turn holds these lines, and without lines there is no open turn. -/
structure Collects (lines : List HeldLine) (session : Session σ) : Prop where
  input_eq : session.turn.input = joinedText lines
  turn_of_nil : lines = [] → session.turn = .empty
  continuing_of_ne_nil : lines ≠ [] → session.isContinuing = true
  input_ne_of_ne_nil : lines ≠ [] → session.turn.input ≠ ""

theorem isContinuing_of_empty {session : Session σ} (h : session.turn = .empty) :
    session.isContinuing = false := by
  rw [isContinuing, h]
  rfl

theorem ignores_iff {session : Session σ} {line : String} :
    session.ignores line = true ↔ session.isContinuing = false ∧ isBlankLine line = true := by
  simp [ignores]

theorem ignores_of_open {session : Session σ} (h : session.isContinuing = true) (line : String) :
    session.ignores line = false := by
  simp [ignores, h]

theorem collects_nil {session : Session σ} (h : session.turn = .empty) : session.Collects [] where
  input_eq := by
    rw [h]
    rfl
  turn_of_nil := fun _ => h
  continuing_of_ne_nil := fun hnil => absurd rfl hnil
  input_ne_of_ne_nil := fun hnil => absurd rfl hnil

namespace Collects

variable {lines : List HeldLine} {session : Session σ}

theorem isContinuing_iff (h : session.Collects lines) :
    session.isContinuing = true ↔ lines ≠ [] := by
  constructor
  · rintro hopen rfl
    rw [isContinuing_of_empty (h.turn_of_nil rfl)] at hopen
    cases hopen
  · exact h.continuing_of_ne_nil

theorem isContinuing_eq_false_iff (h : session.Collects lines) :
    session.isContinuing = false ↔ lines = [] := by
  rw [← Bool.not_eq_true, h.isContinuing_iff, Decidable.not_not]

theorem verdict_eq_or (h : session.Collects lines) :
    session.turn.verdict = .complete ∨ session.turn.verdict = .incomplete := by
  cases hopen : session.isContinuing with
  | true => exact .inr (of_decide_eq_true hopen)
  | false =>
      rw [h.turn_of_nil (h.isContinuing_eq_false_iff.1 hopen)]
      exact .inl rfl

theorem input_eq_empty_iff (h : session.Collects lines) :
    session.turn.input = "" ↔ lines = [] := by
  constructor
  · intro hinput
    exact Decidable.not_not.1 fun hlines => h.input_ne_of_ne_nil hlines hinput
  · intro hlines
    rw [h.turn_of_nil hlines]
    rfl

end Collects

variable [TokenSource σ] {source : σ} {lines : List HeldLine} {session : Session σ}

theorem judged_input (session : Session σ) (line : String) :
    (session.judged line).turn.input = Turn.joinInput session.turn.input line := rfl

theorem Collects.judged_input_eq (h : session.Collects lines) (line : String) :
    (session.judged line).turn.input = joinedText (lines ++ [session.held line]) := by
  rw [judged_input, Turn.joinInput]
  by_cases hlines : lines = []
  · rw [if_pos (h.input_eq_empty_iff.2 hlines), hlines]
    simp [joinedText, held]
  · rw [if_neg (h.input_ne_of_ne_nil hlines), joinedText_concat hlines, ← h.input_eq]
    rfl

theorem Collects.judged (h : session.Collects lines) {line : String}
    (hline : session.ignores line = false) (hverdict : (session.scan line).verdict = .incomplete) :
    (session.judged line).Collects (lines ++ [session.held line]) where
  input_eq := h.judged_input_eq line
  turn_of_nil := by
    simp
  continuing_of_ne_nil := by
    intro _
    rw [isContinuing]
    exact decide_eq_true hverdict
  input_ne_of_ne_nil := by
    intro _
    rw [judged_input, Turn.joinInput]
    by_cases hinput : session.turn.input = ""
    · rw [if_pos hinput]
      -- The turn holds nothing yet, so that a blank line would have been left out.
      have hclosed : session.isContinuing = false :=
        h.isContinuing_eq_false_iff.2 (h.input_eq_empty_iff.1 hinput)
      rintro rfl
      simp [ignores, hclosed, isBlankLine_empty] at hline
    · rw [if_neg hinput]
      simp [String.append_eq_empty_iff, hinput]

theorem Run.collects {history : List Entry} (hrun : Run source history session) :
    session.Collects (openLines history) := by
  refine hrun.openLines_induction (P := Collects) ?_ ?_
  · intro session hturn
    exact collects_nil hturn
  · intro lines session line hline hverdict hcollects
    exact hcollects.judged hline hverdict

theorem Run.of_mem_openLines {history : List Entry} {Q : HeldLine → Prop}
    (hrun : Run source history session)
    (hheld : ∀ (earlier : Session σ) (line : String), Q (earlier.held line)) :
    ∀ line ∈ openLines history, Q line := by
  refine hrun.openLines_induction (P := fun lines _ => ∀ line ∈ lines, Q line) ?_ ?_
  · intro session _ line hmem
    cases hmem
  · intro lines session line _ _ hlines held hmem
    cases List.mem_append.1 hmem with
    | inl hmem => exact hlines held hmem
    | inr hmem =>
        rw [List.mem_singleton.1 hmem]
        exact hheld session line

/-- The lines of the open turn were fed one after another, and these feeds are the
latest that happened. -/
theorem Run.openLines_latest {history : List Entry} (hrun : Run source history session) :
    (openLines history).reverse.map (Entry.fed · .more) <+: history := by
  induction hrun with
  | start => exact List.nil_prefix
  | @feed history session next line outcome run hfeed ih =>
      cases feedStep_of_feed hfeed with
      | blank hline =>
          have hnil := run.collects.isContinuing_eq_false_iff.1 (ignores_iff.1 hline).1
          rw [openLines, hnil]
          exact List.nil_prefix
      | more hline hverdict =>
          rw [openLines, List.reverse_concat, List.map_cons]
          exact (List.prefix_cons_inj _).2 ih
      | ready hline hverdict => exact List.nil_prefix
      | rejected hline hverdict => exact List.nil_prefix
  | cancel run ih => exact List.nil_prefix
  | @finish history session run ih =>
      cases hopen : session.isContinuing with
      | true =>
          rw [finish_of_open hopen]
          exact List.nil_prefix
      | false =>
          have hnil := run.collects.isContinuing_eq_false_iff.1 hopen
          rw [finish_of_closed hopen, openLines, hnil]
          exact List.nil_prefix

theorem Run.blank_iff {history : List Entry} {next : Session σ} {line : String}
    {outcome : Outcome} (hrun : Run source history session)
    (hfeed : session.feed line = .ok (outcome, next)) :
    outcome = .blank ↔ isBlankLine line = true ∧ openLines history = [] := by
  have hignores : session.ignores line = true ↔
      isBlankLine line = true ∧ openLines history = [] := by
    rw [ignores_iff, hrun.collects.isContinuing_eq_false_iff, and_comm]
  rw [← hignores]
  cases feedStep_of_feed hfeed with
  | blank hline => simp [hline]
  | more hline hverdict | ready hline hverdict | rejected hline hverdict => simp [hline]

theorem Run.text_eq {history : List Entry} {next : Session σ} {line text : String}
    {outcome : Outcome} (hrun : Run source history session)
    (hfeed : session.feed line = .ok (outcome, next))
    (htext : outcome = .ready text ∨ outcome = .rejected text) :
    text = joinedText (openLines history ++ [session.held line]) := by
  rw [← hrun.collects.judged_input_eq line]
  cases feedStep_of_feed hfeed with
  | blank hline | more hline hverdict => simp at htext
  | ready hline hverdict | rejected hline hverdict => simpa [eq_comm] using htext

theorem Run.finish_eq {history : List Entry} (hrun : Run source history session) :
    session.finish =
      if openLines history = [] then (none, session)
      else (some (joinedText (openLines history)), session.cancel) := by
  cases hopen : session.isContinuing with
  | true =>
      rw [finish_of_open hopen, if_neg (hrun.collects.isContinuing_iff.1 hopen),
        hrun.collects.input_eq]
  | false =>
      rw [finish_of_closed hopen, if_pos (hrun.collects.isContinuing_eq_false_iff.1 hopen)]

/-- At every moment of a run the turn holds the lines fed since the last one ended, which
were fed in one go, and every text handed back is that of such lines. -/
theorem text_of_turn_is_its_lines {history : List Entry} (hrun : Run source history session) :
    session.turn.input = joinedText (openLines history) ∧
      (openLines history).reverse.map (Entry.fed · .more) <+: history ∧
      (session.isContinuing = true ↔ openLines history ≠ []) ∧
      (∀ (line : String) (outcome : Outcome) (next : Session σ),
        session.feed line = .ok (outcome, next) →
          (outcome = .blank ↔ isBlankLine line = true ∧ openLines history = []) ∧
          ∀ text, outcome = .ready text ∨ outcome = .rejected text →
            text = joinedText (openLines history ++ [session.held line])) ∧
      (session.finish.1 = none ↔ openLines history = []) ∧
      (session.finish.1 = none → session.finish.2 = session) ∧
      ∀ text, session.finish.1 = some text → text = joinedText (openLines history) := by
  refine ⟨hrun.collects.input_eq, hrun.openLines_latest, hrun.collects.isContinuing_iff, ?_, ?_⟩
  · intro line outcome next hfeed
    exact ⟨hrun.blank_iff hfeed, fun text htext => hrun.text_eq hfeed htext⟩
  · rw [hrun.finish_eq]
    by_cases hlines : openLines history = []
    · simp [hlines]
    · simp [hlines, eq_comm]

/-- A blank line in front of the turn is left out, one inside it is kept. -/
theorem text_of_turn_is_its_lines_around_blanks :
    let fresh := start ({} : FragmentLexer)
    let first := fresh.answer " "
    let second := first.2.answer "f("
    let third := second.2.answer ""
    let history := [.fed (second.2.held "") third.1, .fed (first.2.held "f(") second.1,
      .fed (fresh.held " ") first.1]
    Run ({} : FragmentLexer) history third.2 ∧
      third.2.feed ")" = .ok (.ready "f(\n\n)", (third.2.answer ")").2) ∧
      "f(\n\n)" = joinedText (openLines history ++ [third.2.held ")"]) ∧
      third.2.finish.1 = some "f(\n" ∧ "f(\n" = joinedText (openLines history) := by
  intro fresh first second third history
  have hrun : Run ({} : FragmentLexer) history third.2 :=
    ((Run.start.answer " ").answer "f(").answer ""
  have hready : (third.2.answer ")").1 = .ready "f(\n\n)" := by
    decide +kernel
  have hfeed : third.2.feed ")" = .ok (.ready "f(\n\n)", (third.2.answer ")").2) :=
    feed_of_answer hready
  have hfinish : third.2.finish.1 = some "f(\n" := by
    decide +kernel
  obtain ⟨-, -, -, htexts, -, -, hrest⟩ := text_of_turn_is_its_lines hrun
  exact ⟨hrun, hfeed, (htexts _ _ _ hfeed).2 _ (.inl rfl), hfinish, hrest _ hfinish⟩

end Session

end CxxUnits
