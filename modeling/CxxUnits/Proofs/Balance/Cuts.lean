import CxxUnits.Proofs.Balance.Judgement
import CxxUnits.Proofs.Balance.Lines

/-!
A stream of lexemes cut into fragments. Between two fragments a turn drops its angles if
nothing else stands open, and forgets the last item it read. Neither shows in what comes
later, wherever the cuts are, as long as none parts a hash from its name and no fragment
but the last stops at a closer without its opener. A comma just before a cut is another
matter: whether it keeps the turn open depends on where the next fragment ends.
-/
namespace CxxUnits

namespace Item

theorem group_append {xs : List Lexeme} (hhash : loneHash ∉ group xs) (ys : List Lexeme) :
    group (xs ++ ys) = group xs ++ group ys := by
  induction xs using group.induct with
  | case1 => rfl
  | case2 hash h =>
      rw [group_hash h] at hhash
      exact absurd List.mem_cons_self hhash
  | case3 hash h name rest ih =>
      rw [group_directive h] at hhash
      have hrest : loneHash ∉ group rest := fun hmem => hhash (List.mem_cons_of_mem _ hmem)
      rw [List.cons_append, List.cons_append, group_directive h, group_directive h, ih hrest]
      rfl
  | case4 lexeme rest h ih =>
      rw [group_token h] at hhash
      have hrest : loneHash ∉ group rest := fun hmem => hhash (List.mem_cons_of_mem _ hmem)
      rw [List.cons_append, group_token h, group_token h, ih hrest]
      rfl

theorem group_flatten_append {parts : List (List Lexeme)}
    (hhash : ∀ part ∈ parts, loneHash ∉ group part) (ys : List Lexeme) :
    group (parts.flatten ++ ys) = parts.flatMap group ++ group ys := by
  induction parts with
  | nil => rfl
  | cons part later ih =>
      have hlater := ih fun other hother => hhash other (List.mem_cons_of_mem _ hother)
      rw [List.flatten_cons, List.append_assoc, group_append (hhash part List.mem_cons_self),
        hlater, List.flatMap_cons, List.append_assoc]

theorem beforeStop_append {items : List Item} {opened later : List Pair}
    (hhash : loneHash ∉ items) (hread : nest opened (word items) = ⟨true, later⟩)
    (more : List Item) :
    beforeStop opened (items ++ more) = items ++ beforeStop later more := by
  induction items generalizing opened with
  | nil =>
      cases hread
      rfl
  | cons item rest ih =>
      have hitem : item ≠ loneHash := fun h => hhash (h ▸ List.mem_cons_self)
      have hrest : loneHash ∉ rest := fun hmem => hhash (List.mem_cons_of_mem _ hmem)
      cases hstep : item.step? opened with
      | none =>
          rw [nest_cons_of_step?_none hstep] at hread
          cases hread
      | some next =>
          rw [nest_cons_of_step? hstep] at hread
          rw [List.cons_append, beforeStop_cons_of_step? hitem hstep, ih hrest hread,
            List.cons_append]

end Item

namespace Scan

theorem verdict_eq_of_not_comma {scan other : Scan} (hscan : scan.before ≠ some .comma)
    (hother : other.before ≠ some .comma)
    (hverdict : scan.structuralVerdict = other.structuralVerdict) :
    scan.verdict = other.verdict := by
  rw [verdict_of_not_comma hscan, verdict_of_not_comma hother, hverdict]

theorem verdict_eq_of_before {scan other : Scan} (hbefore : scan.before = other.before)
    (hverdict : scan.structuralVerdict = other.structuralVerdict) :
    scan.verdict = other.verdict := by
  by_cases hcomma : other.before = some .comma
  · rw [verdict_of_comma hcomma, verdict_of_comma (hbefore.trans hcomma)]
  · exact verdict_eq_of_not_comma (hbefore ▸ hcomma) hcomma hverdict

end Scan

namespace Turn

variable {σ τ : Type} [TokenSource σ] [TokenSource τ]

/-- Judge fragments one after another. -/
def validateAll (turn : Turn) (source : σ) : List String → Turn × σ
  | [] => (turn, source)
  | fragment :: later =>
    let (turn, source) := turn.validate source fragment
    turn.validateAll source later

/-- The lexemes that the source holds for each of the fragments. -/
def heldAll (turn : Turn) (source : σ) : List String → List (List Lexeme)
  | [] => []
  | fragment :: later =>
    let (turn, next) := turn.validate source fragment
    TokenSource.upcoming (TokenSource.enter source fragment) :: turn.heldAll next later

/-- The scans by which the fragments are judged. -/
def scanAll (turn : Turn) (source : σ) : List String → List Scan
  | [] => []
  | fragment :: later =>
    let (next, rest) := turn.validate source fragment
    turn.scan source fragment :: next.scanAll rest later

theorem validateAll_concat (turn : Turn) (source : σ) (earlier : List String) (last : String) :
    turn.validateAll source (earlier ++ [last]) =
      (turn.validateAll source earlier).1.validate (turn.validateAll source earlier).2 last := by
  induction earlier generalizing turn source with
  | nil => rfl
  | cons fragment later ih => exact ih _ _

theorem heldAll_concat (turn : Turn) (source : σ) (earlier : List String) (last : String) :
    turn.heldAll source (earlier ++ [last]) =
      turn.heldAll source earlier ++
        [TokenSource.upcoming
          (TokenSource.enter (turn.validateAll source earlier).2 last)] := by
  induction earlier generalizing turn source with
  | nil => rfl
  | cons fragment later ih => exact congrArg (_ :: ·) (ih _ _)

def itemsAll (turn : Turn) (source : σ) (fragments : List String) : List Item :=
  (turn.heldAll source fragments).flatMap Item.group

/-- The fragments leave open what their items leave open, read without the cuts. -/
theorem nest_itemsAll (turn : Turn) (source : σ) (fragments : List String)
    (hmatched : ∀ scan ∈ turn.scanAll source fragments, scan.matched = true) :
    nest turn.stack.pairs (Item.word (turn.itemsAll source fragments)) =
      ⟨true, (turn.validateAll source fragments).1.stack.pairs⟩ := by
  induction fragments generalizing turn source with
  | nil => rfl
  | cons fragment later ih =>
      have hfirst : nest turn.stack.pairs (Item.word (items source fragment)) =
          ⟨true, (turn.validate source fragment).1.stack.pairs⟩ := by
        rw [nest_scan, hmatched _ List.mem_cons_self, validate_fst, extend_pairs]
      have hlater := ih _ _ fun scan hscan => hmatched scan (List.mem_cons_of_mem _ hscan)
      rw [itemsAll, heldAll, List.flatMap_cons, Item.word_append]
      exact (nest_append_of_matched hfirst _).trans hlater

theorem loneHash_not_mem_itemsAll {turn : Turn} {source : σ} {fragments : List String}
    (hhash : ∀ lexemes ∈ turn.heldAll source fragments, Item.loneHash ∉ Item.group lexemes) :
    Item.loneHash ∉ turn.itemsAll source fragments := by
  intro hmem
  obtain ⟨lexemes, hlexemes, hlone⟩ := List.mem_flatMap.1 hmem
  exact hhash lexemes hlexemes hlone

/-- A stream of lexemes comes to the same structural verdict and leaves the same openers
that are not angles, whether it is given as one fragment or cut into several. The final
verdicts agree too, unless the last item before the last cut is a comma. -/
theorem cuts_do_not_show (turn : Turn) (source : σ) (other : τ) (earlier : List String)
    (last text : String)
    (hwhole : TokenSource.upcoming (TokenSource.enter other text) =
      (turn.heldAll source (earlier ++ [last])).flatten)
    (hhash : ∀ lexemes ∈ turn.heldAll source earlier, Item.loneHash ∉ Item.group lexemes)
    (hmatched : ∀ scan ∈ turn.scanAll source earlier, scan.matched = true) :
    let between := turn.validateAll source earlier
    let scan := between.1.scan between.2 last
    let scan' := turn.scan other text
    let after := (turn.validateAll source (earlier ++ [last])).1
    let after' := (turn.validate other text).1
    scan.matched = scan'.matched ∧ scan.structuralVerdict = scan'.structuralVerdict ∧
      scan.stack.hard = scan'.stack.hard ∧ after.stack.hard = after'.stack.hard ∧
      ((turn.itemsAll source earlier).getLast?.map Item.kind ≠ some .comma →
        after.verdict = after'.verdict) := by
  intro between scan scan' after after'
  have hafter : after = between.1.extend last scan :=
    congrArg Prod.fst (turn.validateAll_concat source earlier last)
  have hitems : items other text =
      turn.itemsAll source earlier ++ items between.2 last := by
    rw [items, hwhole, heldAll_concat, List.flatten_append, List.flatten_singleton,
      Item.group_flatten_append hhash]
    rfl
  have hearlier := turn.nest_itemsAll source earlier hmatched
  have hread : (⟨scan.matched, scan.stack.pairs⟩ : Nesting) =
      ⟨scan'.matched, scan'.stack.pairs⟩ := by
    rw [← nest_scan between.1 between.2 last, ← nest_scan turn other text, hitems,
      Item.word_append, nest_append_of_matched hearlier]
  have hpairs : scan.stack.pairs = scan'.stack.pairs := congrArg Nesting.opened hread
  have hverdict : scan.structuralVerdict = scan'.structuralVerdict := by
    rw [Scan.structuralVerdict_eq, Scan.structuralVerdict_eq, hread]
  refine ⟨congrArg Nesting.matched hread, hverdict, BalanceStack.pairs_eq_iff.1 hpairs, ?_, ?_⟩
  · rw [hafter, ← BalanceStack.pairs_eq_iff, extend_pairs, hpairs]
    exact (turn.extend_pairs text scan').symm
  · intro hcomma
    rw [hafter]
    have hbefore : scan.before = _ := scan_before between.1 between.2 last
    have hbefore' : scan'.before = _ := scan_before turn other text
    rw [hitems, Item.beforeStop_append (loneHash_not_mem_itemsAll hhash) hearlier] at hbefore'
    by_cases hstop : Item.beforeStop between.1.stack.pairs (items between.2 last) = []
    · -- The last fragment stops before any of its items, so what counts is the cut.
      rw [hstop] at hbefore
      rw [hstop, List.append_nil] at hbefore'
      exact Scan.verdict_eq_of_not_comma (by simp [hbefore]) (hbefore' ▸ hcomma) hverdict
    · rw [List.getLast?_append_of_ne_nil _ hstop] at hbefore'
      exact Scan.verdict_eq_of_before (hbefore.trans hbefore'.symm) hverdict

/-- The angle that a brace closes in the whole is dropped at the first cut, and the last
cut is just before a closer without its opener. -/
theorem cuts_do_not_show_before_closer :
    let lexer : FragmentLexer := {}
    let earlier := ["x = Foo<Bar", "", "{1, 2} (y"]
    let whole := "x = Foo<Bar {1, 2} (y ] z"
    TokenSource.upcoming (TokenSource.enter lexer whole) =
        (empty.heldAll lexer (earlier ++ ["] z"])).flatten ∧
      (empty.itemsAll lexer earlier).getLast?.map Item.kind ≠ some .comma ∧
      (empty.validateAll lexer (earlier ++ ["] z"])).1.verdict =
        (empty.validate lexer whole).1.verdict := by
  intro lexer earlier whole
  have hwhole : TokenSource.upcoming (TokenSource.enter lexer whole) =
      (empty.heldAll lexer (earlier ++ ["] z"])).flatten := by
    decide +kernel
  have hhash : ∀ lexemes ∈ empty.heldAll lexer earlier, Item.loneHash ∉ Item.group lexemes := by
    decide +kernel
  have hmatched : ∀ scan ∈ empty.scanAll lexer earlier, scan.matched = true := by
    decide +kernel
  have hcomma : (empty.itemsAll lexer earlier).getLast?.map Item.kind ≠ some .comma := by
    decide +kernel
  have halike := cuts_do_not_show empty lexer lexer earlier "] z" whole hwhole hhash hmatched
  exact ⟨hwhole, hcomma, halike.2.2.2.2 hcomma⟩

/-- A comma before the last cut is forgotten if nothing follows. -/
example :
    (empty.validateAll ({} : FragmentLexer) ["a,", ""]).1.verdict = .complete ∧
      (empty.validate ({} : FragmentLexer) "a,").1.verdict = .incomplete := by
  decide +kernel

end Turn

end CxxUnits
