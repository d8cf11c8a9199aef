import CxxUnits.Batch.Run
import CxxUnits.Proofs.Batch.Lines
import CxxUnits.Proofs.Session.Feeding

/-!
A batch cuts the lines of its input into stretches, each a blank line or a turn of its
own, and what is left of them at the end is a turn that was not closed. Everything that a
batch shows is read off these stretches: a unit shows its lines, an unbalanced turn and
the one that was not closed show where they stand.
-/
namespace CxxUnits.Batch

open Text Session

inductive Stretch
  | blank (line : String)
  | unit (lines : List String)
  | unbalanced (lines : List String)
  deriving DecidableEq

namespace Stretch

def lines : Stretch → List String
  | blank line => [line]
  | unit lines => lines
  | unbalanced lines => lines

/-- The stretch is what it is called, judged by its lines alone. -/
def Holds : Stretch → Prop
  | blank line => isBlankLine line = true
  | unit lines => EndsAs lines (.ready ("\n".intercalate lines))
  | unbalanced lines => EndsAs lines (.rejected ("\n".intercalate lines))

def isUnbalanced : Stretch → Bool
  | unbalanced _ => true
  | _ => false

/-- The event it comes to if its first line has the given number. -/
def event? (first : Nat) : Stretch → Option Event
  | blank _ => none
  | unit lines => some (.unit ("\n".intercalate lines))
  | unbalanced lines =>
    some (.unbalanced first (first + lines.length - 1) (.discarded ("\n".intercalate lines)))

end Stretch

def events (first : Nat) : List Stretch → List Event
  | [] => []
  | stretch :: rest => (stretch.event? first).toList ++ events (first + stretch.lines.length) rest

/-- The event that lines of a turn which is not closed come to, if there are such lines. -/
def leftEvents (first : Nat) (left : List String) : List Event :=
  if left = [] then [] else [.incomplete first]

def allLines (stretches : List Stretch) : List String :=
  stretches.flatMap Stretch.lines

def Report.behind (events : List Event) (report : Report) : Report :=
  { report with events := events ++ report.events }

theorem runFrom_ok {σ : Type} [TokenSource σ] (session : Session σ) (start number : Nat)
    (line : String) (rest : List (Except ReadFault String)) :
    runFrom session start number (.ok line :: rest) =
      (runFrom (session.answer line).2 (if session.isContinuing then start else number)
        (number + 1) rest).after (if session.isContinuing then start else number) number
          (session.answer line).1 := by
  rw [runFrom, feed_eq_answer]

/-- Where no turn is open, it does not matter where the last one began. -/
theorem runFrom_of_closed {σ : Type} [TokenSource σ] {session : Session σ}
    (h : session.isContinuing = false) (start start' number : Nat)
    (lines : List (Except ReadFault String)) :
    runFrom session start number lines = runFrom session start' number lines := by
  cases lines with
  | nil =>
      rw [runFrom, runFrom, finish_of_closed h]
  | cons line rest =>
      cases line with
      | error fault => rfl
      | ok line => rw [runFrom_ok, runFrom_ok, h]; rfl

/-- The open turn began in line `start`; if there is none, the next one begins there. -/
def BeginsAt {σ : Type} (session : Session σ) (start number : Nat) : Prop :=
  session.isContinuing = true ∨ start = number

theorem BeginsAt.ite_eq {σ : Type} {session : Session σ} {start number : Nat}
    (h : BeginsAt session start number) :
    (if session.isContinuing then start else number) = start := by
  cases h with
  | inl hopen => rw [if_pos hopen]
  | inr hstart => rw [hstart, ite_self]

/-- Lines that leave the turn open come to no event. -/
theorem runFrom_of_more {σ : Type} [TokenSource σ] {session : Session σ} {start number : Nat}
    {lines : List String} (hmore : ∀ outcome ∈ session.outcomes lines, outcome = .more)
    (hstart : BeginsAt session start number) (rest : List (Except ReadFault String)) :
    runFrom session start number (lines.map .ok ++ rest) =
        runFrom (session.afterLines lines) start (number + lines.length) rest ∧
      BeginsAt (session.afterLines lines) start (number + lines.length) := by
  induction lines generalizing session number with
  | nil => exact ⟨rfl, hstart⟩
  | cons line lines ih =>
      obtain ⟨hfirst, hlines⟩ := List.forall_mem_cons.1 hmore
      have hopen : BeginsAt (session.answer line).2 start (number + 1) :=
        .inl (isContinuing_of_more hfirst)
      obtain ⟨hrun, hbegins⟩ := ih hlines hopen
      have hlength : number + 1 + lines.length = number + (line :: lines).length := by
        rw [List.length_cons]
        omega
      rw [hlength] at hrun hbegins
      refine ⟨?_, hbegins⟩
      rw [List.map_cons, List.cons_append, runFrom_ok, hstart.ite_eq, hfirst, hrun]
      rfl

section FragmentLexer

variable {session : Session FragmentLexer}

theorem runFrom_of_endsAs {lines : List String} {outcome : Outcome} (h : EndsAs lines outcome)
    (hturn : session.turn = .empty)
    (hclosed : (session.afterLines lines).isContinuing = false) (number : Nat)
    (rest : List (Except ReadFault String)) :
    runFrom session number number (lines.map .ok ++ rest) =
      (runFrom (session.afterLines lines) (number + lines.length) (number + lines.length)
        rest).after number (number + lines.length - 1) outcome := by
  rw [runFrom_of_closed hclosed (number + lines.length) number]
  obtain ⟨earlier, last, rfl, hopen, rfl⟩ := h
  have hstart : BeginsAt session number number := .inr rfl
  obtain ⟨hrun, hbegins⟩ :=
    runFrom_of_more (hopen.outcomes_eq_more hturn) hstart (.ok last :: rest)
  rw [List.map_append, List.append_assoc, List.map_singleton, List.singleton_append, hrun,
    runFrom_ok, hbegins.ite_eq, answer_afterLines_of_empty hturn, afterLines_append,
    List.length_append, List.length_singleton]
  rfl

theorem turn_afterLines_of_endsAs {lines : List String} {outcome : Outcome} {text : String}
    (h : EndsAs lines outcome) (htext : outcome = .ready text ∨ outcome = .rejected text)
    (hturn : session.turn = .empty) : (session.afterLines lines).turn = .empty := by
  obtain ⟨earlier, last, rfl, -, hlast⟩ := h
  rw [← hlast, ← answer_afterLines_of_empty hturn] at htext
  rw [afterLines_append]
  exact turn_answer_of_text htext

theorem rejected_afterLines_of_more {lines : List String}
    (h : ∀ outcome ∈ session.outcomes lines, outcome = .more) :
    (session.afterLines lines).rejected = session.rejected := by
  induction lines generalizing session with
  | nil => rfl
  | cons line lines ih =>
      obtain ⟨hfirst, hlines⟩ := List.forall_mem_cons.1 h
      rw [afterLines, ih hlines, rejected_answer, hfirst]
      rfl

theorem rejected_afterLines_of_endsAs {lines : List String} {outcome : Outcome}
    (h : EndsAs lines outcome) (hturn : session.turn = .empty) :
    (session.afterLines lines).rejected = session.rejected + outcome.rejections := by
  obtain ⟨earlier, last, rfl, hopen, rfl⟩ := h
  have hearlier := rejected_afterLines_of_more (hopen.outcomes_eq_more hturn)
  rw [afterLines_append, ← answer_afterLines_of_empty hturn, ← hearlier]
  exact rejected_answer _ last

theorem answer_of_blank {line : String} (hturn : session.turn = .empty)
    (hline : isBlankLine line = true) : session.answer line = (.blank, session) :=
  answer_of_ignores (ignores_iff.2 ⟨isContinuing_of_empty hturn, hline⟩)

namespace Stretch

variable {stretch : Stretch}

theorem Holds.turn_eq (h : stretch.Holds) (hturn : session.turn = .empty) :
    (session.afterLines stretch.lines).turn = .empty := by
  cases stretch with
  | blank line =>
      rw [lines, afterLines, answer_of_blank hturn h]
      exact hturn
  | unit lines => exact turn_afterLines_of_endsAs h (.inl rfl) hturn
  | unbalanced lines => exact turn_afterLines_of_endsAs h (.inr rfl) hturn

theorem Holds.rejected_eq (h : stretch.Holds) (hturn : session.turn = .empty) :
    (session.afterLines stretch.lines).rejected =
      session.rejected + if stretch.isUnbalanced then 1 else 0 := by
  cases stretch with
  | blank line =>
      rw [lines, afterLines, answer_of_blank hturn h]
      rfl
  | unit lines => exact rejected_afterLines_of_endsAs h hturn
  | unbalanced lines => exact rejected_afterLines_of_endsAs h hturn

/-- A stretch in front of other lines is run through as a whole. -/
theorem Holds.runFrom_eq (h : stretch.Holds) (hturn : session.turn = .empty) (number : Nat)
    (rest : List (Except ReadFault String)) :
    runFrom session number number (stretch.lines.map .ok ++ rest) =
      (runFrom (session.afterLines stretch.lines) (number + stretch.lines.length)
        (number + stretch.lines.length) rest).behind (stretch.event? number).toList := by
  have hclosed := isContinuing_of_empty (h.turn_eq hturn)
  cases stretch with
  | blank line =>
      have hafter : session.afterLines [line] = session := by
        rw [afterLines, answer_of_blank hturn h]
        rfl
      rw [Stretch.lines, List.map_singleton, List.singleton_append, runFrom_ok, ite_self, hafter,
        answer_of_blank hturn h,
        runFrom_of_closed (isContinuing_of_empty hturn) number (number + [line].length)]
      rfl
  | unit body => exact runFrom_of_endsAs h hturn hclosed number rest
  | unbalanced body => exact runFrom_of_endsAs h hturn hclosed number rest

end Stretch

variable {stretches : List Stretch} {left : List String}

theorem allLines_cons (stretch : Stretch) (rest : List Stretch) :
    allLines (stretch :: rest) = stretch.lines ++ allLines rest := rfl

theorem allLines_append (stretches more : List Stretch) :
    allLines (stretches ++ more) = allLines stretches ++ allLines more :=
  List.flatMap_append

theorem turn_afterLines_allLines (h : ∀ stretch ∈ stretches, stretch.Holds)
    (hturn : session.turn = .empty) : (session.afterLines (allLines stretches)).turn = .empty := by
  induction stretches generalizing session with
  | nil => exact hturn
  | cons stretch rest ih =>
      obtain ⟨hstretch, hrest⟩ := List.forall_mem_cons.1 h
      rw [allLines_cons, afterLines_append]
      exact ih hrest (hstretch.turn_eq hturn)

theorem rejected_afterLines_allLines (h : ∀ stretch ∈ stretches, stretch.Holds)
    (hturn : session.turn = .empty) :
    (session.afterLines (allLines stretches)).rejected =
      session.rejected + stretches.countP Stretch.isUnbalanced := by
  induction stretches generalizing session with
  | nil => rfl
  | cons stretch rest ih =>
      obtain ⟨hstretch, hrest⟩ := List.forall_mem_cons.1 h
      rw [allLines_cons, afterLines_append, ih hrest (hstretch.turn_eq hturn),
        hstretch.rejected_eq hturn, List.countP_cons]
      omega

/-- A run through stretches comes to their events and goes on behind them. -/
theorem runFrom_allLines (h : ∀ stretch ∈ stretches, stretch.Holds)
    (hturn : session.turn = .empty) (number : Nat) (rest : List (Except ReadFault String)) :
    runFrom session number number ((allLines stretches).map .ok ++ rest) =
      (runFrom (session.afterLines (allLines stretches)) (number + (allLines stretches).length)
        (number + (allLines stretches).length) rest).behind (events number stretches) := by
  induction stretches generalizing session number with
  | nil => rfl
  | cons stretch others ih =>
      obtain ⟨hstretch, hothers⟩ := List.forall_mem_cons.1 h
      rw [allLines_cons, List.map_append, List.append_assoc, hstretch.runFrom_eq hturn,
        ih hothers (hstretch.turn_eq hturn), afterLines_append, List.length_append, Nat.add_assoc,
        events]
      simp [Report.behind]

theorem runFrom_nil (session : Session FragmentLexer) (start number : Nat) :
    runFrom session start number [] =
      if session.isContinuing then ⟨[.incomplete start], false⟩
      else ⟨[], decide (session.rejected = 0)⟩ := by
  cases hopen : session.isContinuing with
  | true => rw [runFrom, finish_of_open hopen]; rfl
  | false => rw [runFrom, finish_of_closed hopen]; rfl

/-- At the end of the input there is one event more if a turn is open then. -/
theorem runFrom_left (hleft : StaysOpen left) (hturn : session.turn = .empty) (number : Nat) :
    runFrom (session.afterLines left) number (number + left.length) [] =
      ⟨leftEvents number left, decide (left = [] ∧ session.rejected = 0)⟩ := by
  have hstart : BeginsAt session number number := .inr rfl
  have hbegins := (runFrom_of_more (hleft.outcomes_eq_more hturn) hstart []).2
  rw [runFrom_nil]
  cases left with
  | nil =>
      rw [afterLines, isContinuing_of_empty hturn]
      simp [leftEvents]
  | cons line lines =>
      have hopen : (session.afterLines (line :: lines)).isContinuing = true := by
        apply hbegins.resolve_right
        simp
      rw [hopen]
      simp [leftEvents]

/-- Whatever follows on an input, the events of its stretches come first. -/
theorem report_append (h : ∀ stretch ∈ stretches, stretch.Holds) (hleft : StaysOpen left)
    (rest : List (Except ReadFault String)) :
    report (.ok ((allLines stretches ++ left).map .ok ++ rest)) =
      (runFrom (fresh.afterLines (allLines stretches ++ left)) (1 + (allLines stretches).length)
        (1 + (allLines stretches).length + left.length) rest).behind (events 1 stretches) := by
  have hturn : fresh.turn = .empty := rfl
  have hclosed := turn_afterLines_allLines h hturn
  have hstart : BeginsAt (fresh.afterLines (allLines stretches)) (1 + (allLines stretches).length)
      (1 + (allLines stretches).length) := .inr rfl
  have hrun := (runFrom_of_more (hleft.outcomes_eq_more hclosed) hstart rest).1
  rw [report, List.map_append, List.append_assoc]
  change runFrom fresh 1 1 _ = _
  rw [runFrom_allLines h hturn, hrun, afterLines_append]

/-- The report on an input is read off the stretches of its lines. -/
theorem report_of_stretches (h : ∀ stretch ∈ stretches, stretch.Holds) (hleft : StaysOpen left) :
    report (.ok ((allLines stretches ++ left).map .ok)) =
      ⟨events 1 stretches ++ leftEvents (1 + (allLines stretches).length) left,
        decide (left = [] ∧ ∀ stretch ∈ stretches, stretch.isUnbalanced = false)⟩ := by
  have hturn : fresh.turn = .empty := rfl
  have hzero : fresh.rejected = 0 := rfl
  have happend := report_append h hleft []
  rw [List.append_nil, afterLines_append,
    runFrom_left hleft (turn_afterLines_allLines h hturn),
    rejected_afterLines_allLines h hturn, hzero, Nat.zero_add] at happend
  rw [happend, Report.behind]
  simp [List.countP_eq_zero]

/-- A line that cannot be read ends the report, and nothing is said of an open turn. -/
theorem report_of_fault (h : ∀ stretch ∈ stretches, stretch.Holds) (hleft : StaysOpen left)
    (fault : ReadFault) (rest : List (Except ReadFault String)) :
    report (.ok ((allLines stretches ++ left).map .ok ++ .error fault :: rest)) =
      ⟨events 1 stretches ++ [.failed (.cannotRead fault)], false⟩ := by
  rw [report_append h hleft]
  rfl

/-- All lines belong to stretches, but for those of a turn that is still open. -/
theorem exists_stretches (lines : List String) :
    ∃ stretches left, lines = allLines stretches ++ left ∧
      (∀ stretch ∈ stretches, Stretch.Holds stretch) ∧ StaysOpen left := by
  have hopened : ∀ opened, StaysOpen opened → ∃ stretches left,
      opened ++ lines = allLines stretches ++ left ∧
        (∀ stretch ∈ stretches, Stretch.Holds stretch) ∧ StaysOpen left := by
    induction lines with
    | nil =>
        intro opened hopened
        exact ⟨[], opened, by simp [allLines], by simp, hopened⟩
    | cons line rest ih =>
        intro opened hopened
        -- Whatever stretch the line ends, the others are those of the lines after it.
        have hends : ∀ stretch : Stretch, stretch.Holds → stretch.lines = opened ++ [line] →
            ∃ stretches left, opened ++ line :: rest = allLines stretches ++ left ∧
              (∀ stretch ∈ stretches, Stretch.Holds stretch) ∧ StaysOpen left := by
          intro stretch hstretch hlines
          obtain ⟨stretches, left, hrest, hholds, hleft⟩ := ih [] staysOpen_nil
          refine ⟨stretch :: stretches, left, ?_, ?_, hleft⟩
          · rw [allLines_cons, hlines, List.append_assoc, List.append_assoc, ← hrest]
            rfl
          · exact List.forall_mem_cons.2 ⟨hstretch, hholds⟩
        obtain ⟨rfl, hblank⟩ | hmore | hready | hrejected := hopened.answer_cases line
        · exact hends (.blank line) hblank rfl
        · obtain ⟨stretches, left, hrest, hholds, hleft⟩ := ih _ hmore
          rw [List.append_assoc] at hrest
          exact ⟨stretches, left, hrest, hholds, hleft⟩
        · exact hends (.unit _) hready rfl
        · exact hends (.unbalanced _) hrejected rfl
  exact hopened [] staysOpen_nil

end FragmentLexer

/-- What a stretch puts on the standard output. -/
def Stretch.printed (separator : String) : Stretch → String
  | unit lines => "\n".intercalate lines ++ "\n" ++ separator ++ "\n"
  | _ => ""

/-- What is said of a stretch whose first line has the given number. -/
def Stretch.complaint (first : Nat) : Stretch → String
  | unbalanced lines =>
    s!"error: unbalanced input at lines {first}-{first + lines.length - 1}, discarded\n"
  | _ => ""

def complaints (first : Nat) : List Stretch → String
  | [] => ""
  | stretch :: rest => stretch.complaint first ++ complaints (first + stretch.lines.length) rest

def leftComplaint (first : Nat) (left : List String) : String :=
  if left = [] then ""
  else s!"error: incomplete input at end of stream (from line {first})\n"

theorem join_singleton (text : String) : String.join [text] = text := by
  rw [String.join_cons, String.join_nil, String.append_empty]

theorem join_output_events (separator : String) (first : Nat) (stretches : List Stretch) :
    String.join ((events first stretches).map (Event.output separator)) =
      String.join (stretches.map (Stretch.printed separator)) := by
  induction stretches generalizing first with
  | nil => rfl
  | cons stretch rest ih =>
      rw [events, List.map_append, String.join_append, ih, List.map_cons, String.join_cons]
      congr 1
      cases stretch with
      | blank line => exact String.join_nil
      | unit body | unbalanced body => exact join_singleton _

theorem Event.complaint_off (event : Event) : event.complaint .off = event.message := by
  cases event with
  | unbalanced first last warning => exact String.empty_append
  | unit text | incomplete first | failed error => rfl

theorem map_complaint_off (events : List Event) :
    events.map (Event.complaint .off) = events.map Event.message :=
  List.map_congr_left fun event _ => event.complaint_off

theorem join_message_events (first : Nat) (stretches : List Stretch) :
    String.join ((events first stretches).map Event.message) = complaints first stretches := by
  induction stretches generalizing first with
  | nil => rfl
  | cons stretch rest ih =>
      rw [events, List.map_append, String.join_append, ih, complaints]
      congr 1
      cases stretch with
      | blank line => exact String.join_nil
      | unit body | unbalanced body => exact join_singleton _

theorem join_output_leftEvents (separator : String) (first : Nat) (left : List String) :
    String.join ((leftEvents first left).map (Event.output separator)) = "" := by
  rw [leftEvents]
  by_cases h : left = []
  · rw [if_pos h]
    exact String.join_nil
  · rw [if_neg h]
    exact join_singleton _

theorem join_complaint_leftEvents (log : Log) (first : Nat) (left : List String) :
    String.join ((leftEvents first left).map (Event.complaint log)) =
      leftComplaint first left := by
  rw [leftEvents, leftComplaint]
  by_cases h : left = []
  · rw [if_pos h, if_pos h]
    exact String.join_nil
  · rw [if_neg h, if_neg h]
    exact join_singleton _

theorem answer_of_stretches {stretches : List Stretch} {left : List String}
    (h : ∀ stretch ∈ stretches, stretch.Holds) (hleft : StaysOpen left) (separator : String)
    (log : Log) :
    (report (.ok ((allLines stretches ++ left).map .ok))).answer separator log =
      { stdout := String.join (stretches.map (Stretch.printed separator))
        stderr := String.join ((events 1 stretches).map (Event.complaint log)) ++
          leftComplaint (1 + (allLines stretches).length) left
        exitCode :=
          if left = [] ∧ ∀ stretch ∈ stretches, stretch.isUnbalanced = false then 0 else 1 } := by
  rw [report_of_stretches h hleft, Report.answer, List.map_append, String.join_append,
    join_output_events, join_output_leftEvents, String.append_empty, List.map_append,
    String.join_append, join_complaint_leftEvents]
  simp only [decide_eq_true_eq]

theorem answer_of_fault {stretches : List Stretch} {left : List String}
    (h : ∀ stretch ∈ stretches, stretch.Holds) (hleft : StaysOpen left) (fault : ReadFault)
    (rest : List (Except ReadFault String)) (separator : String) (log : Log) :
    (report (.ok ((allLines stretches ++ left).map .ok ++ .error fault :: rest))).answer
        separator log =
      { stdout := String.join (stretches.map (Stretch.printed separator))
        stderr := String.join ((events 1 stretches).map (Event.complaint log)) ++
          (Event.failed (.cannotRead fault)).message
        exitCode := 1 } := by
  have hnone : (Event.failed (.cannotRead fault)).output separator = "" := rfl
  rw [report_of_fault h hleft, Report.answer, List.map_append, String.join_append,
    join_output_events, List.map_singleton, join_singleton, hnone, String.append_empty,
    List.map_append, String.join_append, List.map_singleton, join_singleton]
  rfl

/-- Every line of an input is accounted for. In order, the lines are cut into blank lines
outside a turn, units and unbalanced turns, each a turn by itself, and the lines of a turn
that was not closed. The standard output holds the units, each joined by line feeds and
followed by the separator; the error output, with the log off, tells the first and the last
line of each unbalanced turn and the first of the turn that was not closed; and the exit code
is zero if there is no such turn. -/
theorem batch_accounts_for_every_line (separator text : String) :
    ∃ (stretches : List Stretch) (left : List String),
      textLines text = allLines stretches ++ left ∧
        (∀ stretch ∈ stretches, stretch.Holds) ∧ StaysOpen left ∧
        run .off separator text.toUTF8.toList =
          { stdout := String.join (stretches.map (Stretch.printed separator))
            stderr :=
              complaints 1 stretches ++ leftComplaint (1 + (allLines stretches).length) left
            exitCode :=
              if left = [] ∧ ∀ stretch ∈ stretches, stretch.isUnbalanced = false then 0 else 1 } := by
  obtain ⟨stretches, left, hlines, hholds, hleft⟩ := exists_stretches (textLines text)
  refine ⟨stretches, left, hlines, hholds, hleft, ?_⟩
  rw [run, toList_toUTF8, linesOf_encode, hlines, answer_of_stretches hholds hleft,
    map_complaint_off, join_message_events]

end CxxUnits.Batch
