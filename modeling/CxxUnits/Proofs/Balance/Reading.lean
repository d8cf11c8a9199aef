import CxxUnits.Balance.Scan
import CxxUnits.Proofs.Balance.Word

/-!
A scan reads the word of its items. The stack holds the pairs that stand open with
angles strewn among them; whatever an item does to the angles, it does to the pairs
what its mark does. So a scan finds its closers exactly as a reading of the word
does, and leaves open what that leaves open.
-/
namespace CxxUnits

def Pair.opener : Pair → Opener
  | bracket b => .bracket b
  | conditional => .conditional

def Opener.pair? : Opener → Option Pair
  | bracket b => some (.bracket b)
  | conditional => some .conditional
  | angle => none

theorem Pair.pair?_opener (pair : Pair) : pair.opener.pair? = some pair := by
  cases pair <;> rfl

theorem Pair.isAngle_opener (pair : Pair) : pair.opener.isAngle = false := by
  cases pair <;> rfl

theorem Pair.opener_inj {p q : Pair} : p.opener = q.opener ↔ p = q := by
  cases p <;> cases q <;> simp [Pair.opener]

theorem Opener.exists_pair {o : Opener} (h : o.isAngle = false) :
    ∃ pair : Pair, pair.opener = o := by
  cases o with
  | bracket b => exact ⟨.bracket b, rfl⟩
  | conditional => exact ⟨.conditional, rfl⟩
  | angle => simp at h

namespace BalanceStack

/-- The pairs that stand open on a stack, angles left out. -/
def pairs (stack : BalanceStack) : List Pair :=
  stack.hard.filterMap Opener.pair?

theorem hard_eq_map_opener (stack : BalanceStack) : stack.hard = stack.pairs.map Pair.opener := by
  obtain ⟨entries⟩ := stack
  induction entries with
  | nil => rfl
  | cons o rest ih =>
      simp only [pairs, hard] at ih ⊢
      cases o with
      | bracket b | conditional => simpa [Opener.pair?, Pair.opener] using ih
      | angle => simpa using ih

theorem pairs_eq_iff {s t : BalanceStack} : s.pairs = t.pairs ↔ s.hard = t.hard := by
  constructor
  · intro h
    rw [hard_eq_map_opener, hard_eq_map_opener, h]
  · intro h
    rw [pairs, pairs, h]

theorem hasPending_iff_pairs {stack : BalanceStack} :
    stack.hasPending = true ↔ stack.pairs ≠ [] := by
  rw [hasPending_iff, hard_eq_map_opener]
  simp

@[simp] theorem pairs_empty : empty.pairs = [] := rfl

@[simp] theorem pairs_push (stack : BalanceStack) (pair : Pair) :
    (stack.push pair.opener).pairs = pair :: stack.pairs := by
  rw [pairs, hard_push stack pair.isAngle_opener, List.filterMap_cons, pair.pair?_opener]
  rfl

@[simp] theorem pairs_push_angle (stack : BalanceStack) :
    (stack.push .angle).pairs = stack.pairs := rfl

@[simp] theorem pairs_discardAngles (stack : BalanceStack) :
    stack.discardAngles.pairs = stack.pairs := by
  rw [pairs_eq_iff, hard_discardAngles]

@[simp] theorem pairs_closeAngles (n : Nat) (stack : BalanceStack) :
    (closeAngles n stack).pairs = stack.pairs := by
  rw [pairs_eq_iff, hard_closeAngles]

theorem discardAngles_cases (stack : BalanceStack) :
    stack.discardAngles.entries = [] ∧ stack.pairs = [] ∨
      ∃ pair rest, stack.discardAngles.entries = pair.opener :: rest ∧
        stack.pairs = pair :: pairs ⟨rest⟩ := by
  rw [← pairs_discardAngles stack]
  cases hentries : stack.discardAngles.entries with
  | nil =>
      refine .inl ⟨rfl, ?_⟩
      simp [pairs, hard, hentries]
  | cons o rest =>
      have ho : o.isAngle = false := by
        have hhead := List.head?_dropWhile_not Opener.isAngle stack.entries
        simpa [show stack.entries.dropWhile Opener.isAngle = o :: rest from hentries] using hhead
      obtain ⟨pair, rfl⟩ := Opener.exists_pair ho
      refine .inr ⟨pair, rest, rfl, ?_⟩
      rw [show stack.discardAngles = push ⟨rest⟩ pair.opener by
        cases hd : stack.discardAngles; simp_all [push]]
      exact pairs_push ⟨rest⟩ pair

theorem close?_pairs (stack : BalanceStack) (pair : Pair) :
    (stack.close? pair.opener).map pairs = (Mark.closes pair).step? stack.pairs := by
  rcases discardAngles_cases stack with ⟨hentries, hpairs⟩ | ⟨innermost, rest, hentries, hpairs⟩
  · simp [close?, Mark.step?, hentries, hpairs]
  · by_cases h : innermost = pair
    · simp [close?, Mark.step?, hentries, hpairs, h]
    · simp [close?, Mark.step?, hentries, hpairs, h, Pair.opener_inj]

/-- An angle that a brace closes on its way was no pair. -/
theorem closeBracket?_pairs (stack : BalanceStack) (b : Bracket) :
    (stack.closeBracket? b).map pairs = (Mark.closes (.bracket b)).step? stack.pairs := by
  rw [← close?_pairs stack (.bracket b), closeBracket?, Option.map_map]
  apply Option.map_congr
  intro rest _
  simp only [Function.comp]
  split
  · next h => simp [pairs, hard, empty, h.2]
  · rfl

end BalanceStack

namespace Item

/-- The mark an item stands for, if it opens or closes a pair. -/
def mark? : Item → Option Mark
  | token (.opening b) => some (.opens (.bracket b))
  | token (.closing b) => some (.closes (.bracket b))
  | token _ => none
  | directive name =>
    match Directive.ofName name.text.toList with
    | .opens => some (.opens .conditional)
    | .closes => some (.closes .conditional)
    | .other => none
  | loneHash => none

def word (items : List Item) : List Mark :=
  items.filterMap mark?

def step? (item : Item) (opened : List Pair) : Option (List Pair) :=
  match item.mark? with
  | none => some opened
  | some mark => mark.step? opened

/-- The items that are handled before the place where reading from `opened` has
to stop: the end, a hash that nothing follows, or a closer without its opener. -/
def beforeStop (opened : List Pair) : List Item → List Item
  | [] => []
  | loneHash :: _ => []
  | item :: rest =>
    match item.step? opened with
    | none => []
    | some opened => item :: beforeStop opened rest

theorem group_hash {hash : Lexeme} (h : hash.kind = .hash) : group [hash] = [loneHash] := by
  simp [group, h]

theorem group_directive {hash : Lexeme} (h : hash.kind = .hash) (name : Lexeme)
    (rest : List Lexeme) : group (hash :: name :: rest) = directive name :: group rest := by
  simp [group, h]

theorem group_token {lexeme : Lexeme} (h : lexeme.kind ≠ .hash) (rest : List Lexeme) :
    group (lexeme :: rest) = token lexeme.kind :: group rest := by
  cases rest <;> simp [group, h]

@[simp] theorem word_append (xs ys : List Item) : word (xs ++ ys) = word xs ++ word ys :=
  List.filterMap_append

/-- One lemma for all rules: what an item does to the stack, angles left out. -/
theorem update?_pairs (item : Item) (stack : BalanceStack) :
    (item.update? stack).map BalanceStack.pairs = item.step? stack.pairs := by
  cases item with
  | token kind =>
      cases kind with
      | opening b => exact congrArg some (stack.pairs_push (.bracket b))
      | closing b => exact stack.closeBracket?_pairs b
      | less => exact congrArg some stack.pairs_push_angle
      | greater => exact congrArg some (stack.pairs_closeAngles 1)
      | greaterGreater => exact congrArg some (stack.pairs_closeAngles 2)
      | semicolon => exact congrArg some stack.pairs_discardAngles
      | _ => rfl
  | directive name =>
      cases hname : Directive.ofName name.text.toList with
      | opens =>
          simp only [update?, step?, mark?, hname]
          exact congrArg some (stack.pairs_push .conditional)
      | closes =>
          simp only [update?, step?, mark?, hname]
          exact stack.close?_pairs .conditional
      | other => simp [update?, step?, mark?, hname]
  | loneHash => rfl

theorem step?_of_update?_none {item : Item} {stack : BalanceStack} (h : item.update? stack = none) :
    item.step? stack.pairs = none := by
  rw [← update?_pairs, h]
  rfl

theorem step?_of_update?_some {item : Item} {stack next : BalanceStack}
    (h : item.update? stack = some next) : item.step? stack.pairs = some next.pairs := by
  rw [← update?_pairs, h]
  rfl

theorem nest_cons_of_step? {item : Item} {opened next : List Pair}
    (h : item.step? opened = some next) (rest : List Item) :
    nest opened (word (item :: rest)) = nest next (word rest) := by
  cases hmark : item.mark? with
  | none =>
      simp only [step?, hmark, Option.some.injEq] at h
      simp [word, hmark, h]
  | some mark =>
      simp only [step?, hmark] at h
      simp [word, hmark, nest, h]

theorem nest_cons_of_step?_none {item : Item} {opened : List Pair}
    (h : item.step? opened = none) (rest : List Item) :
    nest opened (word (item :: rest)) = ⟨false, opened⟩ := by
  cases hmark : item.mark? with
  | none => simp [step?, hmark] at h
  | some mark =>
      simp only [step?, hmark] at h
      simp [word, hmark, nest, h]

theorem beforeStop_cons_of_step? {item : Item} {opened next : List Pair} (hitem : item ≠ loneHash)
    (h : item.step? opened = some next) (rest : List Item) :
    beforeStop opened (item :: rest) = item :: beforeStop next rest := by
  cases item with
  | loneHash => exact absurd rfl hitem
  | token kind | directive name => simp [beforeStop, h]

theorem beforeStop_cons_of_step?_none {item : Item} {opened : List Pair}
    (h : item.step? opened = none) (rest : List Item) :
    beforeStop opened (item :: rest) = [] := by
  cases item <;> simp [beforeStop, h]

theorem beforeStop_prefix (items : List Item) (opened : List Pair) :
    beforeStop opened items <+: items := by
  fun_induction beforeStop opened items with
  | case1 => exact List.prefix_rfl
  | case2 => exact List.nil_prefix
  | case3 => exact List.nil_prefix
  | case4 opened item rest hitem next hstep ih => exact (List.prefix_cons_inj item).2 ih

end Item

namespace Scan

open Item

theorem run_cons_of_update? {item : Item} {stack next : BalanceStack} (hitem : item ≠ .loneHash)
    (h : item.update? stack = some next) (before : Option TokenKind) (rest : List Item) :
    run stack before (item :: rest) = (run next (some item.kind) rest).after item.width := by
  cases item with
  | loneHash => exact absurd rfl hitem
  | token kind | directive name => simp [run, h]

theorem run_cons_of_update?_none {item : Item} {stack : BalanceStack}
    (h : item.update? stack = none) (before : Option TokenKind) (rest : List Item) :
    run stack before (item :: rest) = ⟨false, before, stack.discardAngles, item.width⟩ := by
  cases item with
  | loneHash => simp [update?] at h
  | token kind | directive name => simp [run, h]

theorem run_before (items : List Item) (stack : BalanceStack) (before : Option TokenKind) :
    (run stack before items).before =
      ((beforeStop stack.pairs items).getLast?.map kind).or before := by
  fun_induction run stack before items with
  | case1 => rfl
  | case2 => rfl
  | case3 stack before item rest hitem hupdate =>
      rw [beforeStop_cons_of_step?_none (step?_of_update?_none hupdate)]
      rfl
  | case4 stack before item rest hitem next hupdate ih =>
      rw [beforeStop_cons_of_step? hitem (step?_of_update?_some hupdate), List.getLast?_cons]
      show (run next (some item.kind) rest).before = _
      rw [ih]
      cases (beforeStop next.pairs rest).getLast? <;> rfl

/-- What is handled before a scan stops finds all its openers, and the scan leaves
open what that leaves open. -/
theorem nest_beforeStop (items : List Item) (stack : BalanceStack) (before : Option TokenKind) :
    nest stack.pairs (word (beforeStop stack.pairs items)) =
      ⟨true, (run stack before items).stack.pairs⟩ := by
  fun_induction run stack before items with
  | case1 => rfl
  | case2 => rfl
  | case3 stack before item rest hitem hupdate =>
      rw [beforeStop_cons_of_step?_none (step?_of_update?_none hupdate)]
      exact congrArg (Nesting.mk true) stack.pairs_discardAngles.symm
  | case4 stack before item rest hitem next hupdate ih =>
      have hstep := step?_of_update?_some hupdate
      rw [beforeStop_cons_of_step? hitem hstep, nest_cons_of_step? hstep]
      exact ih

private theorem nest_cons {item : Item} (hitem : item ≠ .loneHash) {rest : List Item}
    (ih : ∀ (stack : BalanceStack) (before : Option TokenKind),
      nest stack.pairs (word rest) =
        ⟨(run stack before rest).matched, (run stack before rest).stack.pairs⟩)
    (stack : BalanceStack) (before : Option TokenKind) :
    nest stack.pairs (word (item :: rest)) =
      ⟨(run stack before (item :: rest)).matched,
        (run stack before (item :: rest)).stack.pairs⟩ := by
  cases h : item.update? stack with
  | none =>
      rw [run_cons_of_update?_none h, nest_cons_of_step?_none (step?_of_update?_none h)]
      exact congrArg (Nesting.mk false) stack.pairs_discardAngles.symm
  | some next =>
      rw [run_cons_of_update? hitem h, nest_cons_of_step? (step?_of_update?_some h)]
      exact ih next (some item.kind)

/-- A scan ends as the reading of its word does. The induction is on the grouping
of the lexemes: a hash without a name can only be the last of the items. -/
theorem nest_word_group (lexemes : List Lexeme) (stack : BalanceStack)
    (before : Option TokenKind) :
    nest stack.pairs (word (group lexemes)) =
      ⟨(run stack before (group lexemes)).matched,
        (run stack before (group lexemes)).stack.pairs⟩ := by
  induction lexemes using group.induct generalizing stack before with
  | case1 => rfl
  | case2 hash hhash =>
      rw [group_hash hhash]
      rfl
  | case3 hash hhash name rest ih =>
      rw [group_directive hhash]
      exact nest_cons (by simp) ih stack before
  | case4 lexeme rest hlexeme ih =>
      rw [group_token hlexeme]
      exact nest_cons (by simp) ih stack before

end Scan

end CxxUnits
