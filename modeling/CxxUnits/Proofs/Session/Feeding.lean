import CxxUnits.Proofs.Session.Collected
import CxxUnits.Proofs.Turn.Calls

/-!
Lines fed to a session one after another. With the built-in lexer the answers depend on
the open turn alone, so that the lines of a turn are answered alike in every session that
has no turn open. Whether lines make up a unit can thus be said of the lines themselves.
-/
namespace CxxUnits

open Text

/-- How many turns an answer rejects. -/
def Outcome.rejections : Outcome → Nat
  | rejected _ => 1
  | _ => 0

namespace Session

section Source

variable {σ : Type} [TokenSource σ]

def afterLines (session : Session σ) : List String → Session σ
  | [] => session
  | line :: rest => afterLines (session.answer line).2 rest

def outcomes (session : Session σ) : List String → List Outcome
  | [] => []
  | line :: rest => (session.answer line).1 :: outcomes (session.answer line).2 rest

theorem afterLines_append (session : Session σ) (lines more : List String) :
    session.afterLines (lines ++ more) = (session.afterLines lines).afterLines more := by
  induction lines generalizing session with
  | nil => rfl
  | cons line rest ih => exact ih _

theorem outcomes_append (session : Session σ) (lines more : List String) :
    session.outcomes (lines ++ more) =
      session.outcomes lines ++ (session.afterLines lines).outcomes more := by
  induction lines generalizing session with
  | nil => rfl
  | cons line rest ih =>
      rw [List.cons_append, outcomes, ih]
      rfl

theorem answer_of_feed {session next : Session σ} {line : String} {outcome : Outcome}
    (h : session.feed line = .ok (outcome, next)) : session.answer line = (outcome, next) := by
  rw [feed_eq_answer] at h
  exact Except.ok.inj h

theorem answer_of_ignores {session : Session σ} {line : String}
    (h : session.ignores line = true) : session.answer line = (.blank, session) :=
  answer_of_feed (feed_of_ignores h)

theorem answer_of_incomplete {session : Session σ} {line : String}
    (hline : session.ignores line = false) (h : (session.scan line).verdict = .incomplete) :
    session.answer line = (.more, session.judged line) := by
  apply answer_of_feed
  rw [feed_of_not_ignores hline, h]

theorem answer_of_complete {session : Session σ} {line : String}
    (hline : session.ignores line = false) (h : (session.scan line).verdict = .complete) :
    session.answer line = (.ready (session.judged line).turn.input, session.accepting line) := by
  apply answer_of_feed
  rw [feed_of_not_ignores hline, h]

theorem answer_of_invalid {session : Session σ} {line : String}
    (hline : session.ignores line = false) (h : (session.scan line).verdict = .invalid) :
    session.answer line =
      (.rejected (session.judged line).turn.input, session.rejecting line) := by
  apply answer_of_feed
  rw [feed_of_not_ignores hline, h]

/-- Two sessions that scan a line alike take the same of the four steps. What holds of both
answers is thus shown step by step. -/
theorem answer_cases_of_scan_eq {session other : Session σ} {line : String}
    {P : Outcome × Session σ → Outcome × Session σ → Prop}
    (hignores : session.ignores line = other.ignores line)
    (hscan : session.scan line = other.scan line)
    (hblank : P (.blank, session) (.blank, other))
    (hmore : P (.more, session.judged line) (.more, other.judged line))
    (hready : P (.ready (session.judged line).turn.input, session.accepting line)
      (.ready (other.judged line).turn.input, other.accepting line))
    (hrejected : P (.rejected (session.judged line).turn.input, session.rejecting line)
      (.rejected (other.judged line).turn.input, other.rejecting line)) :
    P (session.answer line) (other.answer line) := by
  cases hline : session.ignores line with
  | true =>
      rw [answer_of_ignores hline, answer_of_ignores (hignores ▸ hline)]
      exact hblank
  | false =>
      have hother : other.ignores line = false := hignores ▸ hline
      cases hverdict : (session.scan line).verdict with
      | incomplete =>
          rw [answer_of_incomplete hline hverdict, answer_of_incomplete hother (hscan ▸ hverdict)]
          exact hmore
      | complete =>
          rw [answer_of_complete hline hverdict, answer_of_complete hother (hscan ▸ hverdict)]
          exact hready
      | invalid =>
          rw [answer_of_invalid hline hverdict, answer_of_invalid hother (hscan ▸ hverdict)]
          exact hrejected
      | unknown => exact absurd hverdict (session.scan line).verdict_ne_unknown

/-- A session is left without an open turn when it hands out a text. -/
theorem turn_answer_of_text {session : Session σ} {line text : String}
    (h : (session.answer line).1 = .ready text ∨ (session.answer line).1 = .rejected text) :
    (session.answer line).2.turn = .empty := by
  obtain ⟨outcome, next, hfeed, hstep⟩ := session.exists_feedStep line
  rw [answer_of_feed hfeed] at h ⊢
  cases hstep with
  | blank hline | more hline hverdict => simp at h
  | ready hline hverdict | rejected hline hverdict => rfl

theorem rejected_answer (session : Session σ) (line : String) :
    (session.answer line).2.rejected =
      session.rejected + (session.answer line).1.rejections := by
  obtain ⟨outcome, next, hfeed, hstep⟩ := session.exists_feedStep line
  rw [answer_of_feed hfeed]
  cases hstep with
  | blank hline | more hline hverdict | ready hline hverdict | rejected hline hverdict => rfl

/-- The turn goes on after a line that is answered so. -/
theorem isContinuing_of_more {session : Session σ} {line : String}
    (h : (session.answer line).1 = .more) : (session.answer line).2.isContinuing = true := by
  obtain ⟨outcome, next, hfeed, hstep⟩ := session.exists_feedStep line
  rw [answer_of_feed hfeed] at h ⊢
  cases hstep with
  | more hline hverdict => exact decide_eq_true hverdict
  | blank hline | ready hline hverdict | rejected hline hverdict => cases h

theorem Run.afterLines {source : σ} {history : List Entry} {session : Session σ}
    (hrun : Run source history session) {lines : List String}
    (hmore : ∀ outcome ∈ session.outcomes lines, outcome = .more) :
    ∃ later, Run source later (session.afterLines lines) ∧
      (openLines later).map HeldLine.text = (openLines history).map HeldLine.text ++ lines := by
  induction lines generalizing history session with
  | nil => exact ⟨history, hrun, by simp⟩
  | cons line rest ih =>
      obtain ⟨hfirst, hrest⟩ := List.forall_mem_cons.1 hmore
      obtain ⟨later, hlater, htexts⟩ := ih (hrun.answer line) hrest
      refine ⟨later, hlater, ?_⟩
      rw [htexts, hfirst, openLines, List.map_append, List.append_assoc]
      rfl

end Source

section FragmentLexer

variable {session other : Session FragmentLexer}

theorem scan_congr (h : session.turn.stack = other.turn.stack) (line : String) :
    session.scan line = other.scan line := by
  rw [scan, scan, Turn.scan, Turn.scan, h, Turn.items, Turn.items,
    FragmentLexer.upcoming_enter, FragmentLexer.upcoming_enter]

/-- What a session answers depends on its turn alone, and so does the turn it goes on with. -/
theorem answer_congr (h : session.turn = other.turn) (line : String) :
    (session.answer line).1 = (other.answer line).1 ∧
      (session.answer line).2.turn = (other.answer line).2.turn := by
  have hscan := scan_congr (congrArg Turn.stack h) line
  have hjudged : (session.judged line).turn = (other.judged line).turn := by
    rw [judged, judged, hscan, h]
  have hignores : session.ignores line = other.ignores line := by
    rw [ignores, ignores, isContinuing, isContinuing, h]
  apply answer_cases_of_scan_eq hignores hscan
    (P := fun reply reply' => reply.1 = reply'.1 ∧ reply.2.turn = reply'.2.turn)
  · exact ⟨rfl, h⟩
  · exact ⟨rfl, hjudged⟩
  · exact ⟨by rw [hjudged], rfl⟩
  · exact ⟨by rw [hjudged], rfl⟩

theorem outcomes_congr (h : session.turn = other.turn) (lines : List String) :
    session.outcomes lines = other.outcomes lines ∧
      (session.afterLines lines).turn = (other.afterLines lines).turn := by
  induction lines generalizing session other with
  | nil => exact ⟨rfl, h⟩
  | cons line rest ih =>
      obtain ⟨houtcome, hturn⟩ := answer_congr h line
      obtain ⟨hrest, hafter⟩ := ih hturn
      exact ⟨by rw [outcomes, outcomes, houtcome, hrest], hafter⟩

def fresh : Session FragmentLexer := start {}

/-- A new session takes all the lines into one turn, and it is still open. -/
def StaysOpen (lines : List String) : Prop :=
  ∀ outcome ∈ fresh.outcomes lines, outcome = .more

/-- A new session takes the lines into one turn, which stays open until the last of them
is answered with this outcome. -/
def EndsAs (lines : List String) (outcome : Outcome) : Prop :=
  ∃ earlier last, lines = earlier ++ [last] ∧ StaysOpen earlier ∧
    ((fresh.afterLines earlier).answer last).1 = outcome

theorem EndsAs.ne_nil {lines : List String} {outcome : Outcome} (h : EndsAs lines outcome) :
    lines ≠ [] := by
  obtain ⟨earlier, last, rfl, -, -⟩ := h
  exact List.concat_ne_nil last earlier

theorem staysOpen_nil : StaysOpen [] := by
  intro outcome hmem
  cases hmem

theorem StaysOpen.concat {lines : List String} (h : StaysOpen lines) {line : String}
    (hmore : ((fresh.afterLines lines).answer line).1 = .more) : StaysOpen (lines ++ [line]) := by
  intro outcome hmem
  rw [outcomes_append] at hmem
  cases List.mem_append.1 hmem with
  | inl hmem => exact h outcome hmem
  | inr hmem => rw [List.mem_singleton.1 hmem, hmore]

theorem StaysOpen.run {lines : List String} (h : StaysOpen lines) :
    ∃ history, Run ({} : FragmentLexer) history (fresh.afterLines lines) ∧
      (openLines history).map HeldLine.text = lines :=
  Run.start.afterLines h

/-- After lines that leave a turn open, a line is blank with no line before it, leaves the
turn open as well, or ends it as a unit or as rejected, with the text of all the lines. -/
theorem StaysOpen.answer_cases {lines : List String} (h : StaysOpen lines) (line : String) :
    (lines = [] ∧ isBlankLine line = true) ∨ StaysOpen (lines ++ [line]) ∨
      EndsAs (lines ++ [line]) (.ready ("\n".intercalate (lines ++ [line]))) ∨
      EndsAs (lines ++ [line]) (.rejected ("\n".intercalate (lines ++ [line]))) := by
  obtain ⟨history, hrun, htexts⟩ := h.run
  have hjoined : joinedText (openLines history ++ [(fresh.afterLines lines).held line]) =
      "\n".intercalate (lines ++ [line]) := by
    rw [joinedText, List.map_append, htexts]
    rfl
  have hfeed := (fresh.afterLines lines).feed_eq_answer line
  cases houtcome : ((fresh.afterLines lines).answer line).1 with
  | blank =>
      obtain ⟨hblank, hnil⟩ := (hrun.blank_iff hfeed).1 houtcome
      exact .inl ⟨by rw [← htexts, hnil]; rfl, hblank⟩
  | more => exact .inr (.inl (h.concat houtcome))
  | ready unit =>
      have hunit := hrun.text_eq hfeed (.inl houtcome)
      rw [hjoined] at hunit
      exact .inr (.inr (.inl ⟨lines, line, rfl, h, hunit ▸ houtcome⟩))
  | rejected text =>
      have htext := hrun.text_eq hfeed (.inr houtcome)
      rw [hjoined] at htext
      exact .inr (.inr (.inr ⟨lines, line, rfl, h, htext ▸ houtcome⟩))

/-- Lines that leave the turn of a new session open do so in every session without an
open turn. -/
theorem StaysOpen.outcomes_eq_more {lines : List String} (h : StaysOpen lines)
    (hturn : session.turn = .empty) : ∀ outcome ∈ session.outcomes lines, outcome = .more := by
  have hcongr : session.outcomes lines = fresh.outcomes lines :=
    (outcomes_congr hturn lines).1
  rwa [hcongr]

theorem answer_afterLines_of_empty (hturn : session.turn = .empty) (lines : List String)
    (line : String) :
    ((session.afterLines lines).answer line).1 = ((fresh.afterLines lines).answer line).1 :=
  (answer_congr (outcomes_congr hturn lines).2 line).1

end FragmentLexer

end Session

end CxxUnits
