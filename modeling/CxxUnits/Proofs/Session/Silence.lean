import CxxUnits.Proofs.Session.Feeding

/-!
Lines without tokens. A silent line has comments at most, so its scan ends where it begins:
the stack stays as it is, and no comma comes before the end. In a turn that waits for a closer
such a line changes nothing but the text, and any number of them may stand between two lines.
A turn that only a comma keeps open is closed by it, since the comma is the end of another
scan and no state remembers it.
-/
namespace CxxUnits

open Text

/-- The line has no tokens but comments. -/
def IsSilent (line : String) : Prop :=
  ∀ token ∈ lex line, token.kind = .comment

def Outcome.withoutText : Outcome → Outcome
  | ready _ => ready ""
  | rejected _ => rejected ""
  | outcome => outcome

namespace Session

variable {session other : Session FragmentLexer}

/-- Both sessions judge alike from here on: they differ at most in the text of the turn, in
the identifiers they gathered and in what their lexers hold. -/
structure AlikeButText (session other : Session FragmentLexer) : Prop where
  stack : session.turn.stack = other.turn.stack
  verdict : session.turn.verdict = other.turn.verdict
  accepted : session.accepted = other.accepted
  rejected : session.rejected = other.rejected

namespace AlikeButText

theorem ignores_eq (h : session.AlikeButText other) (line : String) :
    session.ignores line = other.ignores line := by
  rw [ignores, ignores, isContinuing, isContinuing, h.verdict]

theorem judged (h : session.AlikeButText other) (line : String) :
    (session.judged line).AlikeButText (other.judged line) := by
  have hscan := scan_congr h.stack line
  refine ⟨?_, congrArg Scan.verdict hscan, h.accepted, h.rejected⟩
  simp only [Session.judged, Turn.extend, hscan]

theorem answer (h : session.AlikeButText other) (line : String) :
    (session.answer line).1.withoutText = (other.answer line).1.withoutText ∧
      (session.answer line).2.AlikeButText (other.answer line).2 := by
  apply answer_cases_of_scan_eq (h.ignores_eq line) (scan_congr h.stack line)
    (P := fun reply reply' =>
      reply.1.withoutText = reply'.1.withoutText ∧ reply.2.AlikeButText reply'.2)
  · exact ⟨rfl, h⟩
  · exact ⟨rfl, h.judged line⟩
  · exact ⟨rfl, ⟨rfl, rfl, congrArg (· + 1) h.accepted, h.rejected⟩⟩
  · exact ⟨rfl, ⟨rfl, rfl, h.accepted, congrArg (· + 1) h.rejected⟩⟩

theorem outcomes (h : session.AlikeButText other) (lines : List String) :
    (session.outcomes lines).map Outcome.withoutText =
        (other.outcomes lines).map Outcome.withoutText ∧
      (session.afterLines lines).AlikeButText (other.afterLines lines) := by
  induction lines generalizing session other with
  | nil => exact ⟨rfl, h⟩
  | cons line rest ih =>
      obtain ⟨houtcome, hnext⟩ := h.answer line
      obtain ⟨hrest, hafter⟩ := ih hnext
      refine ⟨?_, hafter⟩
      rw [Session.outcomes, Session.outcomes, List.map_cons, List.map_cons, houtcome, hrest]

end AlikeButText

section Silent

variable {line : String}

theorem lexemes_of_isSilent (h : IsSilent line) :
    (lexemes line.toList).filter (·.kind ≠ .comment) = [] := by
  rw [← map_toLexeme_lex, List.filter_map, List.map_eq_nil_iff, List.filter_eq_nil_iff]
  intro token hmem
  simp [h token hmem]

/-- The scan of a silent line ends where it begins. -/
theorem scan_of_isSilent (session : Session FragmentLexer) (h : IsSilent line) :
    session.scan line = ⟨true, none, session.turn.stack, 1⟩ := by
  rw [scan, Turn.scan, Turn.items, FragmentLexer.upcoming_enter, lexemes_of_isSilent h]
  rfl

theorem answer_of_isSilent_of_pending (hopen : session.isContinuing = true)
    (hpending : session.turn.stack.hard ≠ []) (h : IsSilent line) :
    session.answer line = (.more, session.judged line) := by
  apply answer_of_incomplete (ignores_of_open hopen line)
  rw [session.scan_of_isSilent h]
  simp [Scan.verdict, BalanceStack.hasPending_iff.2 hpending]

theorem answer_of_isSilent_of_no_pending (hopen : session.isContinuing = true)
    (hnone : session.turn.stack.hard = []) (h : IsSilent line) :
    session.answer line = (.ready (session.judged line).turn.input, session.accepting line) := by
  have hpending : ¬session.turn.stack.hasPending = true := by
    rw [BalanceStack.hasPending_iff]
    exact not_not_intro hnone
  apply answer_of_complete (ignores_of_open hopen line)
  rw [session.scan_of_isSilent h]
  simp [Scan.verdict, hpending]

/-- The text apart, a silent line leaves a turn that waits for a closer as it was. -/
theorem judged_alike_of_isSilent (hopen : session.isContinuing = true)
    (hpending : session.turn.stack.hard ≠ []) (h : IsSilent line) :
    (session.judged line).AlikeButText session where
  stack := by
    have hkeeps := BalanceStack.hasPending_iff.2 hpending
    simp [judged, Turn.extend, session.scan_of_isSilent h, hkeeps]
  verdict := by
    have hmore := answer_of_isSilent_of_pending hopen hpending h
    have hnext := isContinuing_of_more (congrArg Prod.fst hmore)
    rw [hmore] at hnext
    exact (of_decide_eq_true hnext).trans (of_decide_eq_true hopen).symm
  accepted := rfl
  rejected := rfl

end Silent

/-- So do any number of them, and each leaves the turn open. -/
theorem afterLines_alike_of_isSilent (hopen : session.isContinuing = true)
    (hpending : session.turn.stack.hard ≠ []) {silent : List String}
    (h : ∀ line ∈ silent, IsSilent line) :
    (∀ outcome ∈ session.outcomes silent, outcome = .more) ∧
      (session.afterLines silent).AlikeButText session := by
  induction silent generalizing session with
  | nil => exact ⟨by simp [outcomes], ⟨rfl, rfl, rfl, rfl⟩⟩
  | cons line rest ih =>
      obtain ⟨hline, hrest⟩ := List.forall_mem_cons.1 h
      have hmore := answer_of_isSilent_of_pending hopen hpending hline
      have halike := judged_alike_of_isSilent hopen hpending hline
      have hopen' : (session.judged line).isContinuing = true := by
        rw [isContinuing, halike.verdict]
        exact hopen
      have hpending' : (session.judged line).turn.stack.hard ≠ [] := by
        rwa [halike.stack]
      obtain ⟨houtcomes, hafter⟩ := ih hopen' hpending' hrest
      rw [outcomes, afterLines, hmore]
      refine ⟨List.forall_mem_cons.2 ⟨rfl, houtcomes⟩, ?_⟩
      exact ⟨hafter.stack.trans halike.stack, hafter.verdict.trans halike.verdict,
        hafter.accepted, hafter.rejected⟩

theorem more_of_isSilent_iff (hopen : session.isContinuing = true) {line : String}
    (h : IsSilent line) :
    (∃ next, session.feed line = .ok (.more, next)) ↔ session.turn.stack.hard ≠ [] := by
  rw [feed_eq_answer]
  constructor
  · intro hmore hnone
    rw [answer_of_isSilent_of_no_pending hopen hnone h] at hmore
    obtain ⟨next, hnext⟩ := hmore
    cases hnext
  · intro hpending
    rw [answer_of_isSilent_of_pending hopen hpending h]
    exact ⟨_, rfl⟩

/-- A silent line leaves an open turn open exactly when a closer is still to come. Then any
number of silent lines change nothing but the text: later lines are answered as without them.
If no closer is to come, it was a comma that kept the turn open, and the line ends the turn
as a unit. -/
theorem silent_line_leaves_turn_open_iff_pending {source : FragmentLexer} {history : List Entry}
    (hrun : Run source history session) (hopen : session.isContinuing = true) :
    (∀ line, IsSilent line →
      ((∃ next, session.feed line = .ok (.more, next)) ↔ session.turn.stack.hard ≠ []) ∧
      (session.turn.stack.hard = [] → ∃ next, next.turn = .empty ∧ session.feed line =
        .ok (.ready (joinedText (openLines history ++ [session.held line])), next))) ∧
    (session.turn.stack.hard ≠ [] → ∀ silent, (∀ line ∈ silent, IsSilent line) →
      let after := session.afterLines silent
      (∀ outcome ∈ session.outcomes silent, outcome = .more) ∧
      after.isContinuing = true ∧ after.turn.stack = session.turn.stack ∧
      after.turn.input = "\n".intercalate ((openLines history).map HeldLine.text ++ silent) ∧
      ∀ later, (after.outcomes later).map Outcome.withoutText =
          (session.outcomes later).map Outcome.withoutText ∧
        (after.afterLines later).AlikeButText (session.afterLines later)) := by
  constructor
  · intro line hline
    refine ⟨more_of_isSilent_iff hopen hline, ?_⟩
    intro hnone
    refine ⟨session.accepting line, rfl, ?_⟩
    rw [feed_eq_answer, answer_of_isSilent_of_no_pending hopen hnone hline,
      hrun.collects.judged_input_eq]
  · intro hpending silent hsilent after
    obtain ⟨houtcomes, halike⟩ := afterLines_alike_of_isSilent hopen hpending hsilent
    obtain ⟨later, hlater, htexts⟩ := hrun.afterLines houtcomes
    refine ⟨houtcomes, ?_, halike.stack, ?_, halike.outcomes⟩
    · rw [isContinuing, halike.verdict]
      exact hopen
    · rw [hlater.collects.input_eq, joinedText, htexts]

/-- Comments with brackets, an empty line and an angle below, all while a parenthesis is open. -/
theorem silent_line_leaves_turn_open_iff_pending_below_angle :
    let fresh := start ({} : FragmentLexer)
    let first := fresh.answer "f(a < b,"
    let history := [Entry.fed (fresh.held "f(a < b,") first.1]
    let silent := ["", "/* ( */ // ]", " \t"]
    Run ({} : FragmentLexer) history first.2 ∧ first.2.isContinuing = true ∧
      first.2.turn.stack.hard ≠ [] ∧ (∀ line ∈ silent, IsSilent line) ∧
      (∃ next, first.2.feed "// ]" = .ok (.more, next)) ∧
      ((first.2.afterLines silent).outcomes ["c)", "d \x7d"]).map Outcome.withoutText =
        (first.2.outcomes ["c)", "d \x7d"]).map Outcome.withoutText := by
  intro fresh first history silent
  have hrun : Run ({} : FragmentLexer) history first.2 := Run.start.answer "f(a < b,"
  have hopen : first.2.isContinuing = true := by decide +kernel
  have hpending : first.2.turn.stack.hard ≠ [] := by decide +kernel
  have hsilent : ∀ line ∈ silent, IsSilent line := by
    unfold IsSilent
    decide +kernel
  have hcomment : IsSilent "// ]" := by
    unfold IsSilent
    decide +kernel
  obtain ⟨hline, hlines⟩ := silent_line_leaves_turn_open_iff_pending hrun hopen
  exact ⟨hrun, hopen, hpending, hsilent, (hline _ hcomment).1.2 hpending,
    ((hlines hpending silent hsilent).2.2.2.2 _).1⟩

/-- A comment behind a comma ends the turn, where nothing else keeps it open. -/
theorem not_every_silent_line_leaves_turn_open :
    ¬∀ (history : List Entry) (session : Session FragmentLexer) (line : String),
      Run ({} : FragmentLexer) history session → session.isContinuing = true →
        IsSilent line → ∃ next, session.feed line = .ok (.more, next) := by
  intro hall
  let fresh := start ({} : FragmentLexer)
  let first := fresh.answer "int a = 1,"
  have hrun : Run ({} : FragmentLexer) [.fed (fresh.held "int a = 1,") first.1] first.2 :=
    Run.start.answer "int a = 1,"
  have hopen : first.2.isContinuing = true := by decide +kernel
  have hsilent : IsSilent "// then b" := by
    unfold IsSilent
    decide +kernel
  have hready : (first.2.answer "// then b").1 = .ready "int a = 1,\n// then b" := by
    decide +kernel
  obtain ⟨next, hmore⟩ := hall _ first.2 "// then b" hrun hopen hsilent
  rw [feed_of_answer hready] at hmore
  cases hmore

end Session

end CxxUnits
