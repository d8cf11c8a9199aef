import CxxUnits.Proofs.Session.Collected
import CxxUnits.Proofs.Token.Joined
import CxxUnits.Token.Fragment

/-!
A unit is lexed twice: line by line when its lines are judged, and as a whole when its
identifiers are gathered. Both readings agree exactly when no line but the last ends
open, since each line is read as a text of its own.
-/
namespace CxxUnits

/-- The source held the tokens of the line's own text, the comments left out. -/
def HeldLine.IsLexed (line : HeldLine) : Prop :=
  line.lexemes = (CxxUnits.lexemes line.text.toList).filter (·.kind ≠ .comment)

namespace Session

section FragmentLexer

variable {source : FragmentLexer} {session next : Session FragmentLexer}

theorem held_isLexed (session : Session FragmentLexer) (line : String) :
    (session.held line).IsLexed :=
  FragmentLexer.upcoming_enter session.source line

theorem Run.unit_eq {history : List Entry} {line unit : String}
    (hrun : Run source history session) (hfeed : session.feed line = .ok (.ready unit, next)) :
    unit.toList = ['\n'].intercalate
      ((openLines history ++ [session.held line]).map (·.text.toList)) := by
  rw [hrun.text_eq hfeed (.inl rfl), joinedText, String.toList_intercalate, List.map_map]
  rfl

theorem Run.isLexed_of_mem {history : List Entry} {line : String} {held : HeldLine}
    (hrun : Run source history session)
    (hmem : held ∈ openLines history ++ [session.held line]) : held.IsLexed := by
  cases List.mem_append.1 hmem with
  | inl hmem => exact hrun.of_mem_openLines held_isLexed held hmem
  | inr hmem =>
      rw [List.mem_singleton.1 hmem]
      exact held_isLexed session line

/-- The unit has the tokens of its lines in turn, comments and all, exactly when no line
but the last ends open. Then what was judged line by line and the identifiers gathered
from the whole are of one stream. -/
theorem unit_lexes_as_its_lines {history : List Entry} {line unit : String}
    (hrun : Run source history session) (hfeed : session.feed line = .ok (.ready unit, next))
    (hlines : ∀ held ∈ openLines history ++ [session.held line], '\n' ∉ held.text.toList) :
    let lines := openLines history ++ [session.held line]
    ((lex unit).map Token.toLexeme =
        lines.flatMap (fun held => (lex held.text).map Token.toLexeme) ↔
      ∀ held ∈ openLines history, endsOpen held.text.toList = false) ∧
    ((∀ held ∈ openLines history, endsOpen held.text.toList = false) →
      ((lex unit).map Token.toLexeme).filter (·.kind ≠ .comment) =
          lines.flatMap HeldLine.lexemes ∧
        next.identifiers = session.identifiers.insertMany
          ((lines.flatMap HeldLine.lexemes).filterMap Lexeme.identifier?)) := by
  intro lines
  have hunit : lexemes unit.toList = lexemes (['\n'].intercalate (lines.map (·.text.toList))) := by
    rw [hrun.unit_eq hfeed]
  have hearlier : (lines.map (·.text.toList)).dropLast =
      (openLines history).map (·.text.toList) := by
    rw [List.map_append, List.map_singleton, List.dropLast_concat]
  have hboth : lexemes unit.toList = lines.flatMap (fun held => lexemes held.text.toList) ↔
      ∀ held ∈ openLines history, endsOpen held.text.toList = false := by
    have hiff := lexemes_intercalate_eq_iff (List.forall_mem_map.2 hlines)
    rwa [hearlier, List.forall_mem_map, List.flatMap_map, ← hunit] at hiff
  simp only [map_toLexeme_lex]
  refine ⟨hboth, ?_⟩
  intro hclosed
  have hheld : (lexemes unit.toList).filter (·.kind ≠ .comment) =
      lines.flatMap HeldLine.lexemes := by
    rw [hboth.2 hclosed, List.filter_flatMap]
    refine (List.flatMap_congr ?_).symm
    intro held hmem
    exact hrun.isLexed_of_mem hmem
  refine ⟨hheld, ?_⟩
  cases feedStep_of_feed hfeed with
  | ready hline hverdict =>
      rw [← hheld, ← identifiers_eq_of_not_comment]
      rfl

/-- The comments and the literal of the first line end before the second begins. -/
theorem unit_lexes_as_its_lines_after_comments :
    let fresh := start ({} : FragmentLexer)
    let first := fresh.answer "f('\\'', /* x */ // ("
    let history := [Entry.fed (fresh.held "f('\\'', /* x */ // (") first.1]
    let lines := openLines history ++ [first.2.held "b)"]
    let unit := "f('\\'', /* x */ // (\nb)"
    Run ({} : FragmentLexer) history first.2 ∧
      first.2.feed "b)" = .ok (.ready unit, (first.2.answer "b)").2) ∧
      (∀ held ∈ lines, '\n' ∉ held.text.toList) ∧
      (∀ held ∈ openLines history, endsOpen held.text.toList = false) ∧
      ((lex unit).map Token.toLexeme).filter (·.kind ≠ .comment) =
        lines.flatMap HeldLine.lexemes := by
  intro fresh first history lines unit
  have hrun : Run ({} : FragmentLexer) history first.2 := Run.start.answer _
  have hready : (first.2.answer "b)").1 = .ready unit := by
    decide +kernel
  have hfeed : first.2.feed "b)" = .ok (.ready unit, (first.2.answer "b)").2) :=
    feed_of_answer hready
  have hlines : ∀ held ∈ lines, '\n' ∉ held.text.toList := by
    decide +kernel
  have hclosed : ∀ held ∈ openLines history, endsOpen held.text.toList = false := by
    decide +kernel
  exact ⟨hrun, hfeed, hlines, hclosed,
    ((unit_lexes_as_its_lines hrun hfeed hlines).2 hclosed).1⟩

/-- A comment that is open at the end of its line goes on in the unit alone. -/
theorem not_every_unit_lexes_as_its_lines :
    ¬∀ (history : List Entry) (session next : Session FragmentLexer) (line unit : String),
      Run ({} : FragmentLexer) history session →
        session.feed line = .ok (.ready unit, next) →
          (∀ held ∈ openLines history ++ [session.held line], '\n' ∉ held.text.toList) →
            ((lex unit).map Token.toLexeme).filter (·.kind ≠ .comment) =
              (openLines history ++ [session.held line]).flatMap HeldLine.lexemes := by
  intro hall
  let fresh := start ({} : FragmentLexer)
  let first := fresh.answer "(/*"
  have hrun : Run ({} : FragmentLexer) [.fed (fresh.held "(/*") first.1] first.2 :=
    Run.start.answer _
  have hready : (first.2.answer "x*/)").1 = .ready "(/*\nx*/)" := by
    decide +kernel
  have hfeed : first.2.feed "x*/)" = .ok (.ready "(/*\nx*/)", (first.2.answer "x*/)").2) :=
    feed_of_answer hready
  have hsame := hall _ _ _ "x*/)" _ hrun hfeed (by decide +kernel)
  revert hsame
  decide +kernel

end FragmentLexer

end Session

end CxxUnits
