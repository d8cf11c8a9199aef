import CxxUnits.Proofs.Balance.Judgement
import CxxUnits.Proofs.Token.Lexemes

/-!
What earlier turns leave behind. A fragment lexer keeps all fragments it was given, and
the tokens behind the place where a scan stopped. None of this reaches a later turn: once
a turn has ended, in whatever way, each call is answered as by an empty turn with a new
lexer. Only the numbers of the fragments go on from where they were.
-/
namespace CxxUnits.Turn

/-- What can be asked of a turn and its source. -/
inductive Call
  | validate (fragment : String)
  | reset (destination? : Option String)
  | discard
  | takeInput
  deriving DecidableEq

inductive Reply
  | judged (verdict : Verdict)
  /-- The turn is over, and this text is handed out. -/
  | ended (text? : Option String)
  /-- Nothing was done, and the destination is what it was. -/
  | refused (error : TurnError) (destination? : Option String)
  deriving DecidableEq

def Call.endsTurn : Call → Bool
  | validate _ => false
  | reset none => true
  | reset (some destination) => destination = ""
  | discard => true
  | takeInput => true

section Source

variable {σ : Type} [TokenSource σ]

def Call.perform (state : Turn × σ) : Call → Reply × Turn × σ
  | validate fragment =>
    let next := state.1.validate state.2 fragment
    (.judged next.1.verdict, next)
  | reset destination? =>
    match state.1.reset destination? with
    | .ok (text?, turn) => (.ended text?, turn, state.2)
    | .error error => (.refused error destination?, state)
  | discard => (.ended none, state.1.discard, state.2)
  | takeInput => (.ended (some state.1.takeInput.1), state.1.takeInput.2, state.2)

def after (state : Turn × σ) : List Call → Turn × σ
  | [] => state
  | call :: later => after (call.perform state).2 later

/-- What is seen of calls: the reply to each, and the turn as it then stands. -/
def replies (state : Turn × σ) : List Call → List (Reply × Turn)
  | [] => []
  | call :: later =>
    ((call.perform state).1, (call.perform state).2.1) :: replies (call.perform state).2 later

theorem after_concat (state : Turn × σ) (earlier : List Call) (call : Call) :
    after state (earlier ++ [call]) = (call.perform (after state earlier)).2 := by
  induction earlier generalizing state with
  | nil => rfl
  | cons first later ih => exact ih _

/-- Every call that ends the turn leaves it empty. -/
theorem turn_perform_of_endsTurn {call : Call} (h : call.endsTurn = true) (state : Turn × σ) :
    (call.perform state).2.1 = .empty := by
  cases call with
  | validate fragment => cases h
  | discard | takeInput => rfl
  | reset destination? =>
      cases destination? with
      | none => rfl
      | some destination =>
          have hempty : destination = "" := by simpa [Call.endsTurn] using h
          rw [hempty]
          rfl

theorem perform_reset_of_ne_empty {destination : String} (h : destination ≠ "")
    (state : Turn × σ) :
    (Call.reset (some destination)).perform state =
      (.refused (.nonEmptyDestination destination.utf8ByteSize) (some destination), state) := by
  simp [Call.perform, reset, moveInput, h, Except.map]

end Source

section FragmentLexer

theorem validate_fst_congr (turn : Turn) (lexer other : FragmentLexer) (fragment : String) :
    (turn.validate lexer fragment).1 = (turn.validate other fragment).1 := by
  rw [validate_fst, validate_fst, scan, scan, items, items, FragmentLexer.upcoming_enter,
    FragmentLexer.upcoming_enter]

/-- A call is answered by the turn alone, whatever its lexer has been given before. -/
theorem perform_congr {state other : Turn × FragmentLexer} (h : state.1 = other.1)
    (call : Call) :
    (call.perform state).1 = (call.perform other).1 ∧
      (call.perform state).2.1 = (call.perform other).2.1 := by
  obtain ⟨turn, lexer⟩ := state
  obtain ⟨turn', lexer'⟩ := other
  cases h
  cases call with
  | validate fragment =>
      have hturn := turn.validate_fst_congr lexer lexer' fragment
      exact ⟨congrArg (fun next : Turn => Reply.judged next.verdict) hturn, hturn⟩
  | reset destination? =>
      cases hreset : turn.reset destination? with
      | ok moved => simp [Call.perform, hreset]
      | error error => simp [Call.perform, hreset]
  | discard | takeInput => exact ⟨rfl, rfl⟩

theorem replies_congr {state other : Turn × FragmentLexer} (h : state.1 = other.1)
    (calls : List Call) : replies state calls = replies other calls := by
  induction calls generalizing state other with
  | nil => rfl
  | cons call later ih =>
      obtain ⟨hreply, hturn⟩ := perform_congr h call
      rw [replies, replies, hreply, hturn, ih hturn]

def fresh : Turn × FragmentLexer := (.empty, {})

/-- Whatever was asked of a turn and its lexer, once the turn is ended all further calls
are answered as if they were the first. A reset into a place that is not empty is refused
with the size of what is there, and no further call can tell that it was made. -/
theorem ended_turn_leaves_no_trace (earlier : List Call) :
    (∀ ending : Call, ending.endsTurn = true → ∀ later : List Call,
      replies (after fresh (earlier ++ [ending])) later = replies fresh later) ∧
    (∀ destination : String, destination ≠ "" →
      (Call.reset (some destination)).perform (after fresh earlier) =
          (.refused (.nonEmptyDestination destination.utf8ByteSize) (some destination),
            after fresh earlier) ∧
        ∀ later : List Call, replies (after fresh (earlier ++ [.reset (some destination)])) later =
          replies (after fresh earlier) later) := by
  constructor
  · intro ending hending later
    rw [after_concat]
    exact replies_congr (turn_perform_of_endsTurn hending _) later
  · intro destination hdestination
    have hrefused := perform_reset_of_ne_empty hdestination (after fresh earlier)
    refine ⟨hrefused, ?_⟩
    intro later
    rw [after_concat, hrefused]

/-- The scan of the second fragment stops with a token unread. -/
theorem ended_turn_leaves_no_trace_after_mismatch :
    let earlier : List Call := [.validate "x;", .validate "f(a ] b"]
    let later : List Call := [.validate "(x", .validate ")"]
    (after fresh earlier).2.pending ≠ [] ∧ Call.takeInput.endsTurn = true ∧ "é" ≠ "" ∧
      replies (after fresh (earlier ++ [.takeInput])) later = replies fresh later ∧
      (Call.reset (some "é")).perform (after fresh earlier) =
        (.refused (.nonEmptyDestination 2) (some "é"), after fresh earlier) := by
  intro earlier later
  have hpending : (after fresh earlier).2.pending ≠ [] := by
    decide +kernel
  have hnonempty : "é" ≠ "" := by decide
  obtain ⟨hended, hrefused⟩ := ended_turn_leaves_no_trace earlier
  exact ⟨hpending, rfl, hnonempty, hended .takeInput rfl later, (hrefused "é" hnonempty).1⟩

end FragmentLexer

end CxxUnits.Turn
