import CxxUnits.Proofs.Balance.Reading
import CxxUnits.Token.Fragment
import CxxUnits.Turn

/-!
What the judgement of a fragment decides. Where no comma comes just before the end
of a scan, an empty turn is complete, incomplete or invalid after a fragment as the
word of the fragment is balanced, may still become so, or cannot. This speaks of one
fragment; a turn of several is judged by the pairs that the earlier ones left open.
-/
namespace CxxUnits

def Nesting.verdict : Nesting → Verdict
  | ⟨false, _⟩ => .invalid
  | ⟨true, []⟩ => .complete
  | ⟨true, _ :: _⟩ => .incomplete

theorem Verdict.eq_incomplete_iff {verdict : Verdict} (h : verdict ≠ .unknown) :
    verdict = .incomplete ↔ verdict ≠ .complete ∧ verdict ≠ .invalid := by
  cases verdict <;> simp_all

theorem Nesting.verdict_ne_unknown (nesting : Nesting) : nesting.verdict ≠ .unknown := by
  obtain ⟨matched, opened⟩ := nesting
  cases matched with
  | false => simp [verdict]
  | true => cases opened <;> simp [verdict]

theorem balanced_iff_verdict (word : List Mark) :
    Balanced word ↔ (nest [] word).verdict = .complete := by
  rw [balanced_iff_nest]
  obtain ⟨matched, opened⟩ := nest [] word
  cases matched with
  | false => simp [Nesting.verdict]
  | true => cases opened <;> simp [Nesting.verdict]

theorem viable_iff_verdict (word : List Mark) :
    Viable word ↔ (nest [] word).verdict ≠ .invalid := by
  rw [viable_iff_matched]
  obtain ⟨matched, opened⟩ := nest [] word
  cases matched with
  | false => simp [Nesting.verdict]
  | true => cases opened <;> simp [Nesting.verdict]

theorem BalanceStack.pairs_keep (stack : BalanceStack) :
    (if stack.hasPending then stack else empty).pairs = stack.pairs := by
  by_cases h : stack.hasPending = true
  · rw [if_pos h]
  · have hnone : stack.pairs = [] := by
      rw [hasPending_iff_pairs] at h
      exact Decidable.not_not.1 h
    rw [if_neg h, hnone, pairs_empty]

namespace Scan

/-- The verdict before commas are looked at. -/
def structuralVerdict (scan : Scan) : Verdict :=
  if !scan.matched then .invalid
  else if scan.stack.hasPending then .incomplete
  else .complete

theorem verdict_of_comma {scan : Scan} (h : scan.before = some .comma) :
    scan.verdict = .incomplete := by
  rw [verdict, if_pos h]

theorem verdict_of_not_comma {scan : Scan} (h : scan.before ≠ some .comma) :
    scan.verdict = scan.structuralVerdict := by
  rw [verdict, if_neg h, structuralVerdict]

theorem structuralVerdict_eq (scan : Scan) :
    scan.structuralVerdict = (Nesting.mk scan.matched scan.stack.pairs).verdict := by
  cases hmatched : scan.matched with
  | false => simp [structuralVerdict, hmatched, Nesting.verdict]
  | true =>
      cases hpairs : scan.stack.pairs with
      | nil =>
          have hnone : scan.stack.hasPending = false := by
            rw [← Bool.not_eq_true, BalanceStack.hasPending_iff_pairs]
            simp [hpairs]
          simp [structuralVerdict, hmatched, hnone, Nesting.verdict]
      | cons pair opened =>
          have hsome : scan.stack.hasPending = true := by
            rw [BalanceStack.hasPending_iff_pairs]
            simp [hpairs]
          simp [structuralVerdict, hmatched, hsome, Nesting.verdict]

/-- A turn stays open over a wrong closer only after a comma. -/
theorem comma_or_matched_of_incomplete {scan : Scan} (h : scan.verdict = .incomplete) :
    scan.before = some .comma ∨ scan.matched = true := by
  by_cases hcomma : scan.before = some .comma
  · exact .inl hcomma
  · cases hmatched : scan.matched with
    | false => simp [verdict, hcomma, hmatched] at h
    | true => exact .inr rfl

theorem matched_of_complete {scan : Scan} (h : scan.verdict = .complete) :
    scan.matched = true ∧ scan.stack.pairs = [] := by
  by_cases hcomma : scan.before = some .comma
  · rw [verdict_of_comma hcomma] at h
    cases h
  · rw [verdict_of_not_comma hcomma, structuralVerdict_eq] at h
    cases hmatched : scan.matched with
    | false => simp [hmatched, Nesting.verdict] at h
    | true =>
        cases hpairs : scan.stack.pairs with
        | nil => exact ⟨rfl, rfl⟩
        | cons pair opened => simp [hmatched, hpairs, Nesting.verdict] at h

end Scan

namespace Turn

variable {σ : Type} [TokenSource σ]

def items (source : σ) (fragment : String) : List Item :=
  Item.group (TokenSource.upcoming (TokenSource.enter source fragment))

/-- The scan by which a turn judges one more fragment. -/
def scan (turn : Turn) (source : σ) (fragment : String) : Scan :=
  Scan.run turn.stack none (items source fragment)

theorem validate_fst (turn : Turn) (source : σ) (fragment : String) :
    (turn.validate source fragment).1 = turn.extend fragment (turn.scan source fragment) := rfl

theorem scan_before (turn : Turn) (source : σ) (fragment : String) :
    (turn.scan source fragment).before =
      (Item.beforeStop turn.stack.pairs (items source fragment)).getLast?.map Item.kind := by
  rw [scan, Scan.run_before, Option.or_none]

theorem extend_pairs (turn : Turn) (fragment : String) (scan : Scan) :
    (turn.extend fragment scan).stack.pairs = scan.stack.pairs :=
  scan.stack.pairs_keep

theorem nest_scan (turn : Turn) (source : σ) (fragment : String) :
    nest turn.stack.pairs (Item.word (items source fragment)) =
      ⟨(turn.scan source fragment).matched, (turn.scan source fragment).stack.pairs⟩ :=
  Scan.nest_word_group _ turn.stack none

/-- Where no comma comes before the end of the scan, the pairs alone decide. -/
theorem scan_verdict_of_before {turn : Turn} {source : σ} {fragment : String}
    (hcomma : (turn.scan source fragment).before ≠ some .comma) :
    (turn.scan source fragment).verdict =
      (nest turn.stack.pairs (Item.word (items source fragment))).verdict := by
  rw [Scan.verdict_of_not_comma hcomma, Scan.structuralVerdict_eq, nest_scan]

theorem scan_verdict_of_comma_free {turn : Turn} {source : σ} {fragment : String}
    (hcomma : ∀ item ∈ items source fragment, item.kind ≠ .comma) :
    (turn.scan source fragment).verdict =
      (nest turn.stack.pairs (Item.word (items source fragment))).verdict := by
  apply scan_verdict_of_before
  rw [scan_before]
  intro hlast
  obtain ⟨item, hitem, hkind⟩ := Option.map_eq_some_iff.1 hlast
  have hmem := (Item.beforeStop_prefix _ _).mem (List.mem_of_getLast? hitem)
  exact hcomma item hmem hkind

theorem validate_empty_verdict (source : σ) (fragment : String)
    (hcomma : (Item.beforeStop [] (items source fragment)).getLast?.map Item.kind ≠ some .comma) :
    (empty.validate source fragment).1.verdict =
      (nest [] (Item.word (items source fragment))).verdict := by
  have hbefore : (empty.scan source fragment).before ≠ some .comma := by
    rwa [scan_before]
  rw [validate_fst]
  exact scan_verdict_of_before hbefore

/-- The verdict on a fragment is decided by the grammar of nested pairs. -/
theorem validate_decides_grammar (source : σ) (fragment : String)
    (hcomma : (Item.beforeStop [] (items source fragment)).getLast?.map Item.kind ≠ some .comma) :
    let verdict := (empty.validate source fragment).1.verdict
    let word := Item.word (items source fragment)
    (verdict = .complete ↔ Balanced word) ∧
      (verdict = .incomplete ↔ ¬Balanced word ∧ ∃ rest, Balanced (word ++ rest)) ∧
      (verdict = .invalid ↔ ∀ rest, ¬Balanced (word ++ rest)) := by
  intro verdict word
  have hverdict : verdict = (nest [] word).verdict := validate_empty_verdict source fragment hcomma
  have hunknown : verdict ≠ .unknown := by
    rw [hverdict]
    exact (nest [] word).verdict_ne_unknown
  have hcomplete : verdict = .complete ↔ Balanced word := by
    rw [hverdict, balanced_iff_verdict]
  have hviable : (∃ rest, Balanced (word ++ rest)) ↔ verdict ≠ .invalid := by
    rw [hverdict]
    exact viable_iff_verdict word
  refine ⟨hcomplete, ?_, ?_⟩
  · rw [← hcomplete, hviable]
    exact Verdict.eq_incomplete_iff hunknown
  · rw [← not_exists, hviable, Decidable.not_not]

/-- Angles and a comma that is not the last of the items change nothing. -/
theorem validate_decides_grammar_stray_bracket :
    let items := items ({} : FragmentLexer) "x < y, () #ifdef A ]"
    (Item.beforeStop [] items).getLast?.map Item.kind ≠ some .comma ∧
      ∀ rest, ¬Balanced (Item.word items ++ rest) := by
  intro items
  have hcomma : (Item.beforeStop [] items).getLast?.map Item.kind ≠ some .comma := by
    decide +kernel
  have hinvalid : (empty.validate ({} : FragmentLexer) "x < y, () #ifdef A ]").1.verdict =
      .invalid := by
    decide +kernel
  exact ⟨hcomma, (validate_decides_grammar _ _ hcomma).2.2.mp hinvalid⟩

end Turn

end CxxUnits
