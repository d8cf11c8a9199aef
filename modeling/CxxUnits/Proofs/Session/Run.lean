import CxxUnits.Proofs.Balance.Judgement
import CxxUnits.Session

/-!
Runs of a session: lines fed, turns cancelled and input finished in any order, with
a record of what came of each. The lines of the turn that is open are read off the
record alone. Every feed has one of four outcomes, and none of them is an error.
-/
namespace CxxUnits

open Text

/-- A line and the lexemes that the source of its session held for it. -/
structure HeldLine where
  text : String
  lexemes : List Lexeme
  deriving DecidableEq

def HeldLine.items (line : HeldLine) : List Item :=
  Item.group line.lexemes

inductive Entry
  | fed (line : HeldLine) (outcome : Outcome)
  | cancelled
  | finished (text? : Option String)
  deriving DecidableEq

/-- The lines since the last turn ended, the record being read from its latest entry
back. Lines outside a turn that are blank are not among them. -/
def openLines : List Entry → List HeldLine
  | [] => []
  | .fed _ .blank :: earlier => openLines earlier
  | .fed line .more :: earlier => openLines earlier ++ [line]
  | .fed _ (.ready _) :: _ => []
  | .fed _ (.rejected _) :: _ => []
  | .cancelled :: _ => []
  | .finished none :: earlier => openLines earlier
  | .finished (some _) :: _ => []

namespace Session

variable {σ : Type}

theorem finish_of_open {session : Session σ} (h : session.isContinuing = true) :
    session.finish = (some session.turn.input, session.cancel) :=
  if_pos h

theorem finish_of_closed {session : Session σ} (h : session.isContinuing = false) :
    session.finish = (none, session) :=
  if_neg (by simp [h])

variable [TokenSource σ]

def held (session : Session σ) (line : String) : HeldLine :=
  ⟨line, TokenSource.upcoming (TokenSource.enter session.source line)⟩

def scan (session : Session σ) (line : String) : Scan :=
  session.turn.scan session.source line

/-- The session whose turn has been given a line and whose source has read it. -/
def judged (session : Session σ) (line : String) : Session σ :=
  { session with
    turn := session.turn.extend line (session.scan line)
    source := (session.turn.validate session.source line).2 }

def accepting (session : Session σ) (line : String) : Session σ :=
  { session.judged line with
    turn := .empty
    accepted := session.accepted + 1
    identifiers :=
      session.identifiers.insertMany (CxxUnits.identifiers (session.judged line).turn.input) }

def rejecting (session : Session σ) (line : String) : Session σ :=
  { session.judged line with turn := .empty, rejected := session.rejected + 1 }

def ignores (session : Session σ) (line : String) : Bool :=
  !session.isContinuing && isBlankLine line

inductive FeedStep (session : Session σ) (line : String) : Outcome → Session σ → Prop
  | blank (hline : session.ignores line = true) : FeedStep session line .blank session
  | more (hline : session.ignores line = false)
      (hverdict : (session.scan line).verdict = .incomplete) :
      FeedStep session line .more (session.judged line)
  | ready (hline : session.ignores line = false)
      (hverdict : (session.scan line).verdict = .complete) :
      FeedStep session line (.ready (session.judged line).turn.input) (session.accepting line)
  | rejected (hline : session.ignores line = false)
      (hverdict : (session.scan line).verdict = .invalid) :
      FeedStep session line (.rejected (session.judged line).turn.input) (session.rejecting line)

theorem feed_of_ignores {session : Session σ} {line : String} (h : session.ignores line = true) :
    session.feed line = .ok (.blank, session) :=
  if_pos h

theorem feed_of_not_ignores {session : Session σ} {line : String}
    (h : session.ignores line = false) :
    session.feed line =
      match (session.scan line).verdict with
      | .incomplete => .ok (.more, session.judged line)
      | .complete => .ok (.ready (session.judged line).turn.input, session.accepting line)
      | .invalid | .unknown =>
        .ok (.rejected (session.judged line).turn.input, session.rejecting line) :=
  if_neg (by rw [Session.ignores] at h; simp [h])

/-- Feeding a line never fails, and does one of four things. -/
theorem exists_feedStep (session : Session σ) (line : String) :
    ∃ outcome next, session.feed line = .ok (outcome, next) ∧
      FeedStep session line outcome next := by
  cases hline : session.ignores line with
  | true => exact ⟨.blank, session, feed_of_ignores hline, .blank hline⟩
  | false =>
      rw [feed_of_not_ignores hline]
      cases hverdict : (session.scan line).verdict with
      | incomplete => exact ⟨_, _, rfl, .more hline hverdict⟩
      | complete => exact ⟨_, _, rfl, .ready hline hverdict⟩
      | invalid => exact ⟨_, _, rfl, .rejected hline hverdict⟩
      | unknown => exact absurd hverdict (Scan.verdict_ne_unknown _)

theorem feedStep_of_feed {session next : Session σ} {line : String} {outcome : Outcome}
    (h : session.feed line = .ok (outcome, next)) : FeedStep session line outcome next := by
  obtain ⟨outcome', next', hfeed, hstep⟩ := session.exists_feedStep line
  rw [hfeed] at h
  cases h
  exact hstep

/-- What feeding a line answers. -/
def answer (session : Session σ) (line : String) : Outcome × Session σ :=
  match h : session.feed line with
  | .ok answer => answer
  | .error _ => absurd h (by
      obtain ⟨outcome, next, hfeed, -⟩ := session.exists_feedStep line
      simp [hfeed])

theorem feed_eq_answer (session : Session σ) (line : String) :
    session.feed line = .ok (session.answer line) := by
  rw [answer]
  split
  · next h => exact h
  · next h => exact absurd h (by
      obtain ⟨outcome, next, hfeed, -⟩ := session.exists_feedStep line
      simp [hfeed])

/-- The record of a run, latest entry first, and the session it leads to. -/
inductive Run (source : σ) : List Entry → Session σ → Prop
  | start : Run source [] (.start source)
  | feed {history : List Entry} {session next : Session σ} {line : String} {outcome : Outcome}
      (run : Run source history session) (hfeed : session.feed line = .ok (outcome, next)) :
      Run source (.fed (session.held line) outcome :: history) next
  | cancel {history : List Entry} {session : Session σ} (run : Run source history session) :
      Run source (.cancelled :: history) session.cancel
  | finish {history : List Entry} {session : Session σ} (run : Run source history session) :
      Run source (.finished session.finish.1 :: history) session.finish.2

theorem feed_of_answer {session : Session σ} {line : String} {outcome : Outcome}
    (h : (session.answer line).1 = outcome) :
    session.feed line = .ok (outcome, (session.answer line).2) := by
  rw [feed_eq_answer, ← h]

theorem Run.answer {source : σ} {history : List Entry} {session : Session σ}
    (run : Run source history session) (line : String) :
    Run source (.fed (session.held line) (session.answer line).1 :: history)
      (session.answer line).2 :=
  run.feed (session.feed_eq_answer line)

/-- What holds of an empty turn without lines, and is kept when a line leaves the turn
open, holds of the open turn and its lines throughout a run. -/
theorem Run.openLines_induction {P : List HeldLine → Session σ → Prop}
    (hempty : ∀ session : Session σ, session.turn = .empty → P [] session)
    (hmore : ∀ {lines : List HeldLine} {session : Session σ} {line : String},
      session.ignores line = false → (session.scan line).verdict = .incomplete →
        P lines session → P (lines ++ [session.held line]) (session.judged line))
    {source : σ} {history : List Entry} {session : Session σ}
    (hrun : Run source history session) : P (openLines history) session := by
  induction hrun with
  | start => exact hempty _ rfl
  | feed run hfeed ih =>
      cases feedStep_of_feed hfeed with
      | blank hline => exact ih
      | more hline hverdict => exact hmore hline hverdict ih
      | ready hline hverdict => exact hempty _ rfl
      | rejected hline hverdict => exact hempty _ rfl
  | cancel run ih => exact hempty _ rfl
  | @finish history session run ih =>
      cases hopen : session.isContinuing with
      | true =>
          rw [finish_of_open hopen]
          exact hempty _ rfl
      | false =>
          rw [finish_of_closed hopen]
          exact ih

end Session

end CxxUnits
