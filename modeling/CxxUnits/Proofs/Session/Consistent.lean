import CxxUnits.Proofs.Session.Collected
import CxxUnits.Token.Fragment

/-!
What holds of a session at every moment of a run. Its turn is either empty or waits for
more and holds text; angles alone never stay on the stack; and what it has counted and
gathered is what the record tells, the units alone giving identifiers. Nothing is said
of the source, which may be any.
-/
namespace CxxUnits

open Text

def Entry.unit? : Entry → Option String
  | .fed _ (.ready unit) => some unit
  | _ => none

def Entry.rejected? : Entry → Option String
  | .fed _ (.rejected text) => some text
  | _ => none

def units (history : List Entry) : List String :=
  history.filterMap Entry.unit?

def rejectedTexts (history : List Entry) : List String :=
  history.filterMap Entry.rejected?

theorem Turn.extend_stack (turn : Turn) (fragment : String) (scan : Scan) :
    (turn.extend fragment scan).stack = .empty ∨ (turn.extend fragment scan).stack.hard ≠ [] := by
  rw [extend]
  by_cases h : scan.stack.hasPending = true
  · rw [if_pos h]
    exact .inr (BalanceStack.hasPending_iff.1 h)
  · rw [if_neg h]
    exact .inl rfl

namespace Session

variable {σ : Type}

/-- The session has counted and gathered what the record tells. -/
structure Tallies (history : List Entry) (session : Session σ) : Prop where
  accepted_eq : session.accepted = (units history).length
  rejected_eq : session.rejected = (rejectedTexts history).length
  mem_identifiers_iff : ∀ word, word ∈ session.identifiers ↔
    ∃ unit ∈ units history, word ∈ CxxUnits.identifiers unit

/-- A session keeps its tallies while the record grows by what is neither unit nor
rejected text. -/
theorem Tallies.of_eq {history : List Entry} {session next : Session σ} {entry : Entry}
    (h : session.Tallies history) (hunit : entry.unit? = none)
    (hrejected : entry.rejected? = none) (haccepted : next.accepted = session.accepted)
    (hcount : next.rejected = session.rejected)
    (hidentifiers : next.identifiers = session.identifiers) :
    next.Tallies (entry :: history) where
  accepted_eq := by
    rw [haccepted, h.accepted_eq, units, units, List.filterMap_cons_none hunit]
  rejected_eq := by
    rw [hcount, h.rejected_eq, rejectedTexts, rejectedTexts, List.filterMap_cons_none hrejected]
  mem_identifiers_iff := by
    rw [hidentifiers, units, List.filterMap_cons_none hunit]
    exact h.mem_identifiers_iff

variable [TokenSource σ] {source : σ} {history : List Entry} {session next : Session σ}

theorem FeedStep.tallies {line : String} {outcome : Outcome}
    (hstep : FeedStep session line outcome next) (h : session.Tallies history) :
    next.Tallies (.fed (session.held line) outcome :: history) := by
  cases hstep with
  | blank hline => exact h.of_eq rfl rfl rfl rfl rfl
  | more hline hverdict => exact h.of_eq rfl rfl rfl rfl rfl
  | ready hline hverdict =>
      exact
        { accepted_eq := congrArg (· + 1) h.accepted_eq
          rejected_eq := h.rejected_eq
          mem_identifiers_iff := by
            intro word
            simp [accepting, units, Entry.unit?, h.mem_identifiers_iff] }
  | rejected hline hverdict =>
      exact
        { accepted_eq := h.accepted_eq
          rejected_eq := congrArg (· + 1) h.rejected_eq
          mem_identifiers_iff := h.mem_identifiers_iff }

theorem Run.tallies (hrun : Run source history session) : session.Tallies history := by
  induction hrun with
  | start => exact ⟨rfl, rfl, by simp [units, Session.start]⟩
  | feed run hfeed ih => exact (feedStep_of_feed hfeed).tallies ih
  | cancel run ih => exact ih.of_eq rfl rfl rfl rfl rfl
  | @finish history session run ih =>
      cases hopen : session.isContinuing with
      | true =>
          rw [finish_of_open hopen]
          exact ih.of_eq rfl rfl rfl rfl rfl
      | false =>
          rw [finish_of_closed hopen]
          exact ih.of_eq rfl rfl rfl rfl rfl

theorem Run.stack_eq_or (hrun : Run source history session) :
    session.turn.stack = .empty ∨ session.turn.stack.hard ≠ [] := by
  refine hrun.openLines_induction
    (P := fun _ session => session.turn.stack = .empty ∨ session.turn.stack.hard ≠ []) ?_ ?_
  · intro session hturn
    rw [hturn]
    exact .inl rfl
  · intro lines session line _ _ _
    exact session.turn.extend_stack line (session.scan line)

/-- The record and the session agree, and the session is in one of its two states:
between turns, with nothing collected, or within one. -/
structure Consistent (history : List Entry) (session : Session σ) : Prop where
  verdict : session.turn.verdict = .complete ∨ session.turn.verdict = .incomplete
  isContinuing_iff : session.isContinuing = true ↔ session.turn.input ≠ ""
  stack_of_closed : session.isContinuing = false → session.turn.stack = .empty
  stack : session.turn.stack = .empty ∨ session.turn.stack.hard ≠ []
  tallies : session.Tallies history

/-- Every session that is reached is consistent with the record, and feeding it a line
neither fails nor comes to the verdict that no scan answers. -/
theorem reached_session_consistent (hrun : Run source history session) :
    session.Consistent history ∧
      ∀ line : String, (∃ answer, session.feed line = .ok answer) ∧
        (session.turn.validate session.source line).1.verdict ≠ .unknown := by
  have hcollects := hrun.collects
  constructor
  · exact
      { verdict := hcollects.verdict_eq_or
        isContinuing_iff := by
          rw [hcollects.isContinuing_iff, Ne, Ne, hcollects.input_eq_empty_iff]
        stack_of_closed := by
          intro hclosed
          rw [hcollects.turn_of_nil (hcollects.isContinuing_eq_false_iff.1 hclosed)]
          rfl
        stack := hrun.stack_eq_or
        tallies := hrun.tallies }
  · intro line
    exact ⟨⟨_, session.feed_eq_answer line⟩, (session.scan line).verdict_ne_unknown⟩

/-- The words of the rejected turn and of the open one are not gathered. -/
theorem reached_session_consistent_after_rejection :
    let fresh := start ({} : FragmentLexer)
    let first := fresh.answer "int x;"
    let second := first.2.answer "y ]"
    let third := second.2.answer "z <("
    let history := [.fed (second.2.held "z <(") third.1, .fed (first.2.held "y ]") second.1,
      .fed (fresh.held "int x;") first.1]
    Run ({} : FragmentLexer) history third.2 ∧ third.2.Consistent history ∧
      units history = ["int x;"] ∧ third.2.identifiers.toList = ["int", "x"] := by
  intro fresh first second third history
  have hrun : Run ({} : FragmentLexer) history third.2 :=
    ((Run.start.answer "int x;").answer "y ]").answer "z <("
  have hunits : units history = ["int x;"] := by
    decide +kernel
  have hidentifiers : third.2.identifiers.toList = ["int", "x"] := by
    decide +kernel
  exact ⟨hrun, (reached_session_consistent hrun).1, hunits, hidentifiers⟩

end Session

end CxxUnits
