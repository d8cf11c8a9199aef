import CxxUnits.Proofs.Balance.Reading
import Mathlib.Data.List.Forall2

/-!
Reading the items of one line after another. A line is read up to the first closer
without its opener, so what is read of all lines finds its openers throughout; what
may be left unread is the end of a line from such a closer on.
-/
namespace CxxUnits.Item

/-- What is read of each line, the pairs it leaves open being open in the next. -/
def readLines (opened : List Pair) : List (List Item) → List (List Item)
  | [] => []
  | items :: later =>
    let part := beforeStop opened items
    part :: readLines (nest opened (word part)).opened later

/-- The line is read to its end, a hash that nothing follows left aside. -/
def IsWhole (items part : List Item) : Prop :=
  items = part ∨ items = part ++ [loneHash]

/-- The rest of the line begins with a closer. -/
def LeftAtCloser (items part : List Item) : Prop :=
  ∃ closer rest pair, items = part ++ closer :: rest ∧ closer.mark? = some (.closes pair)

theorem IsWhole.word_eq {items part : List Item} (h : IsWhole items part) :
    word part = word items := by
  cases h with
  | inl h => rw [h]
  | inr h =>
      rw [h, word_append]
      simp [word, mark?]

theorem IsWhole.cons {items part : List Item} (h : IsWhole items part) (item : Item) :
    IsWhole (item :: items) (item :: part) := by
  cases h with
  | inl h => exact .inl (congrArg (item :: ·) h)
  | inr h => exact .inr (congrArg (item :: ·) h)

theorem LeftAtCloser.cons {items part : List Item} (h : LeftAtCloser items part) (item : Item) :
    LeftAtCloser (item :: items) (item :: part) := by
  obtain ⟨closer, rest, pair, rfl, hcloser⟩ := h
  exact ⟨closer, rest, pair, rfl, hcloser⟩

theorem closes_of_step?_none {item : Item} {opened : List Pair} (h : item.step? opened = none) :
    ∃ pair, item.mark? = some (.closes pair) := by
  cases hmark : item.mark? with
  | none => simp [step?, hmark] at h
  | some mark =>
      cases mark with
      | opens pair => simp [step?, hmark, Mark.step?] at h
      | closes pair => exact ⟨pair, rfl⟩

theorem beforeStop_matched (items : List Item) (opened : List Pair) :
    (nest opened (word (beforeStop opened items))).matched = true := by
  fun_induction beforeStop opened items with
  | case1 => rfl
  | case2 => rfl
  | case3 => rfl
  | case4 opened item rest hitem next hstep ih => rwa [nest_cons_of_step? hstep]

/-- Reading from `opened` goes through all items or leaves them at a closer. -/
structure EndsAtCloser (opened : List Pair) (items : List Item) : Prop where
  whole : (nest opened (word items)).matched = true → IsWhole items (beforeStop opened items)
  left : (nest opened (word items)).matched = false →
    LeftAtCloser items (beforeStop opened items)

private theorem endsAtCloser_cons {item : Item} {rest : List Item} (hitem : item ≠ loneHash)
    (ih : ∀ opened, EndsAtCloser opened rest) (opened : List Pair) :
    EndsAtCloser opened (item :: rest) := by
  cases h : item.step? opened with
  | none =>
      obtain ⟨pair, hpair⟩ := closes_of_step?_none h
      constructor
      · intro hmatched
        rw [nest_cons_of_step?_none h] at hmatched
        cases hmatched
      · intro _
        rw [beforeStop_cons_of_step?_none h]
        exact ⟨item, rest, pair, rfl, hpair⟩
  | some next =>
      constructor
      · intro hmatched
        rw [nest_cons_of_step? h] at hmatched
        rw [beforeStop_cons_of_step? hitem h]
        exact ((ih next).whole hmatched).cons item
      · intro hmatched
        rw [nest_cons_of_step? h] at hmatched
        rw [beforeStop_cons_of_step? hitem h]
        exact ((ih next).left hmatched).cons item

/-- The items of a line are grouped by themselves, so none but the last is a hash
without a name and reading them is left only at a closer. -/
theorem endsAtCloser_group (lexemes : List Lexeme) (opened : List Pair) :
    EndsAtCloser opened (group lexemes) := by
  induction lexemes using group.induct generalizing opened with
  | case1 => exact ⟨fun _ => .inl rfl, fun h => by cases h⟩
  | case2 hash hhash =>
      rw [group_hash hhash]
      exact ⟨fun _ => .inr rfl, fun h => by cases h⟩
  | case3 hash hhash name rest ih =>
      rw [group_directive hhash]
      exact endsAtCloser_cons (by simp) ih opened
  | case4 lexeme rest hlexeme ih =>
      rw [group_token hlexeme]
      exact endsAtCloser_cons (by simp) ih opened

theorem readLines_append (lines : List (List Item)) (items : List Item) (opened : List Pair) :
    readLines opened (lines ++ [items]) =
      readLines opened lines ++
        [beforeStop (nest opened (word (readLines opened lines).flatten)).opened items] := by
  induction lines generalizing opened with
  | nil => rfl
  | cons first later ih =>
      have hpart : nest opened (word (beforeStop opened first)) =
          ⟨true, (nest opened (word (beforeStop opened first))).opened⟩ := by
        rw [← beforeStop_matched first opened]
      rw [List.cons_append, readLines, readLines, ih, List.flatten_cons, word_append,
        nest_append_of_matched hpart, List.cons_append]

end CxxUnits.Item
