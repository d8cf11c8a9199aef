import CxxUnits.Proofs.Balance.Lines
import CxxUnits.Proofs.Session.Run
import CxxUnits.Token.Fragment

/-!
The units a session hands on. What was read of the lines of a turn is balanced when
the turn closes as a unit, and its last line is read whole. An earlier line may have
been left at a closer without its opener, which only a comma just before that closer
excuses; the rest of such a line stands in the unit unread, so a unit as a whole
need not be balanced.
-/
namespace CxxUnits

open Item

/-- The line is read to its end or left at a closer just after a comma. -/
def ReadToComma (items part : List Item) : Prop :=
  IsWhole items part ∨ LeftAtCloser items part ∧ part.getLast?.map kind = some .comma

namespace Session

/-- The session has read these lines and keeps open what they leave open. -/
structure HasRead {σ : Type} (lines : List (List Item)) (session : Session σ) : Prop where
  nest_eq : nest [] (word (readLines [] lines).flatten) = ⟨true, session.turn.stack.pairs⟩
  readToComma : List.Forall₂ ReadToComma lines (readLines [] lines)

theorem hasRead_nil {σ : Type} {session : Session σ} (h : session.turn.stack.pairs = []) :
    session.HasRead [] where
  nest_eq := by
    rw [h]
    rfl
  readToComma := .nil

variable {σ : Type} [TokenSource σ] {source : σ} {lines : List (List Item)} {session : Session σ}

theorem nest_held (session : Session σ) (line : String) :
    nest session.turn.stack.pairs (word (session.held line).items) =
      ⟨(session.scan line).matched, (session.scan line).stack.pairs⟩ :=
  session.turn.nest_scan session.source line

def part (session : Session σ) (line : String) : List Item :=
  beforeStop session.turn.stack.pairs (session.held line).items

theorem endsAtCloser_held (session : Session σ) (line : String) :
    EndsAtCloser session.turn.stack.pairs (session.held line).items :=
  endsAtCloser_group _ _

theorem isWhole_of_matched {line : String} (h : (session.scan line).matched = true) :
    IsWhole (session.held line).items (session.part line) := by
  apply (session.endsAtCloser_held line).whole
  rw [nest_held, h]

theorem readToComma_of_incomplete {line : String}
    (h : (session.scan line).verdict = .incomplete) :
    ReadToComma (session.held line).items (session.part line) := by
  cases hmatched : (session.scan line).matched with
  | true => exact .inl (isWhole_of_matched hmatched)
  | false =>
      have hcomma : (session.scan line).before = some .comma :=
        (Scan.comma_or_matched_of_incomplete h).resolve_right (by simp [hmatched])
      refine .inr ⟨?_, ?_⟩
      · apply (session.endsAtCloser_held line).left
        rw [nest_held, hmatched]
      · rw [← hcomma]
        exact (session.turn.scan_before session.source line).symm

theorem HasRead.readLines_append (h : session.HasRead lines) (line : String) :
    readLines [] (lines ++ [(session.held line).items]) =
      readLines [] lines ++ [session.part line] := by
  rw [Item.readLines_append, h.nest_eq]
  rfl

theorem HasRead.nest_append (h : session.HasRead lines) (line : String) :
    nest [] (word (readLines [] (lines ++ [(session.held line).items])).flatten) =
      ⟨true, (session.scan line).stack.pairs⟩ := by
  rw [h.readLines_append, List.flatten_append, List.flatten_singleton, word_append,
    nest_append_of_matched h.nest_eq]
  exact Scan.nest_beforeStop (session.held line).items session.turn.stack none

/-- A line that leaves the turn open is read like those before it. -/
theorem HasRead.judged (h : session.HasRead lines) {line : String}
    (hverdict : (session.scan line).verdict = .incomplete) :
    (session.judged line).HasRead (lines ++ [(session.held line).items]) where
  nest_eq := by
    rw [h.nest_append line]
    exact congrArg (Nesting.mk true) (session.turn.extend_pairs line (session.scan line)).symm
  readToComma := by
    rw [h.readLines_append]
    exact List.rel_append h.readToComma (.cons (readToComma_of_incomplete hverdict) .nil)

theorem Run.hasRead {history : List Entry} (hrun : Run source history session) :
    session.HasRead ((openLines history).map HeldLine.items) := by
  refine hrun.openLines_induction
    (P := fun lines session => session.HasRead (lines.map HeldLine.items)) ?_ ?_
  · intro session hturn
    exact hasRead_nil (congrArg (·.stack.pairs) hturn)
  · intro lines session line _ hverdict hread
    rw [List.map_append]
    exact hread.judged hverdict

def turnLines (history : List Entry) (session : Session σ) (line : String) : List (List Item) :=
  (openLines history ++ [session.held line]).map HeldLine.items

def CloserAfterComma (items : List Item) : Prop :=
  ∃ part, LeftAtCloser items part ∧ part.getLast?.map kind = some .comma

theorem word_flatten_eq {parts : List (List Item)}
    (h : List.Forall₂ ReadToComma lines parts)
    (hcomma : ∀ items ∈ lines, ¬CloserAfterComma items) :
    word parts.flatten = word lines.flatten := by
  induction h with
  | nil => rfl
  | @cons items part lines parts hread _ ih =>
      have hwhole : IsWhole items part :=
        hread.resolve_right fun hleft => hcomma items List.mem_cons_self ⟨part, hleft⟩
      have hrest := ih fun items hitems => hcomma items (List.mem_cons_of_mem _ hitems)
      rw [List.flatten_cons, List.flatten_cons, word_append, word_append, hwhole.word_eq, hrest]

/-- What was read of a unit is balanced. Its last line was read whole, and an earlier
one at least up to a closer just after a comma. -/
theorem read_part_of_unit_balanced {history : List Entry} {next : Session σ}
    {line unit : String} (hrun : Run source history session)
    (hfeed : session.feed line = .ok (.ready unit, next)) :
    let lines := turnLines history session line
    Balanced (word (readLines [] lines).flatten) ∧
      List.Forall₂ ReadToComma lines (readLines [] lines) ∧
      (∃ part ∈ (readLines [] lines).getLast?, IsWhole (session.held line).items part) ∧
      ((∀ items ∈ lines, ¬CloserAfterComma items) → Balanced (word lines.flatten)) := by
  intro lines
  have hlines : lines = (openLines history).map HeldLine.items ++ [(session.held line).items] :=
    List.map_append
  cases feedStep_of_feed hfeed with
  | ready _ hverdict =>
      obtain ⟨hmatched, hpairs⟩ := Scan.matched_of_complete hverdict
      have hwhole : IsWhole (session.held line).items (session.part line) :=
        isWhole_of_matched hmatched
      have hread := hrun.hasRead.readLines_append line
      have hparts : List.Forall₂ ReadToComma lines (readLines [] lines) := by
        rw [hlines, hread]
        exact List.rel_append hrun.hasRead.readToComma (.cons (.inl hwhole) .nil)
      have hbalanced : Balanced (word (readLines [] lines).flatten) := by
        rw [balanced_iff_nest, hlines, hrun.hasRead.nest_append, hpairs]
      refine ⟨hbalanced, hparts, ⟨session.part line, ?_, hwhole⟩, ?_⟩
      · rw [hlines, hread, List.getLast?_concat]
        rfl
      · intro hcomma
        rwa [← word_flatten_eq hparts hcomma]

/-- The closing square bracket after the comma is left out. -/
theorem read_part_of_unit_balanced_after_comma :
    let fresh := start ({} : FragmentLexer)
    let first := fresh.answer "f(a,]"
    let history := [Entry.fed (fresh.held "f(a,]") first.1]
    Run ({} : FragmentLexer) history first.2 ∧
      first.2.feed ")" = .ok (.ready "f(a,]\n)", (first.2.answer ")").2) ∧
      Balanced (word (readLines [] (turnLines history first.2 ")")).flatten) := by
  intro fresh first history
  have hready : (first.2.answer ")").1 = .ready "f(a,]\n)" := by
    decide +kernel
  have hrun : Run ({} : FragmentLexer) history first.2 := Run.start.answer "f(a,]"
  have hfeed : first.2.feed ")" = .ok (.ready "f(a,]\n)", (first.2.answer ")").2) :=
    feed_of_answer hready
  exact ⟨hrun, hfeed, (read_part_of_unit_balanced hrun hfeed).1⟩

/-- A unit as a whole need not be balanced: a comma excuses the closer after it. -/
theorem not_every_unit_balanced :
    ¬∀ (σ : Type) [TokenSource σ] (source : σ) (history : List Entry) (session next : Session σ)
      (line unit : String), Run source history session →
        session.feed line = .ok (.ready unit, next) →
          Balanced (word (turnLines history session line).flatten) := by
  intro hall
  let fresh := start ({} : FragmentLexer)
  let first := fresh.answer "f(a,]"
  have hrun : Run ({} : FragmentLexer) [.fed (fresh.held "f(a,]") first.1] first.2 :=
    Run.start.answer "f(a,]"
  have hready : (first.2.answer ")").1 = .ready "f(a,]\n)" := by
    decide +kernel
  have hfeed : first.2.feed ")" = .ok (.ready "f(a,]\n)", (first.2.answer ")").2) :=
    feed_of_answer hready
  have hbalanced := hall FragmentLexer {} _ _ _ ")" _ hrun hfeed
  rw [balanced_iff_nest] at hbalanced
  revert hbalanced
  decide +kernel

end Session

end CxxUnits
