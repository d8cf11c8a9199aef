import CxxUnits.Token.Kind

/-!
Words of brackets and conditionals. The grammar of nested pairs says which words
are balanced; a word is viable when some balanced word begins with it. Reading a
word from left to right against the pairs that stand open decides both, and where
a reading stops early no continuation of the word is balanced.
-/
namespace CxxUnits

/-- What opens and closes: a kind of bracket, or the conditional. -/
inductive Pair
  | bracket (bracket : Bracket)
  | conditional
  deriving DecidableEq

inductive Mark
  | opens (pair : Pair)
  | closes (pair : Pair)
  deriving DecidableEq

/-- The words of the grammar that nests pairs of one kind in pairs of any other. -/
inductive Balanced : List Mark → Prop
  | nil : Balanced []
  | wrap {inner rest : List Mark} (pair : Pair) (hinner : Balanced inner)
      (hrest : Balanced rest) :
      Balanced (.opens pair :: (inner ++ .closes pair :: rest))

/-- Some balanced word begins with this one. -/
def Viable (word : List Mark) : Prop :=
  ∃ rest, Balanced (word ++ rest)

/-- The pairs that stand open after a mark, the innermost first; nothing if it
closes a pair that is not the innermost. -/
def Mark.step? : Mark → List Pair → Option (List Pair)
  | opens pair, opened => some (pair :: opened)
  | closes _, [] => none
  | closes pair, innermost :: opened => if innermost = pair then some opened else none

/-- Where a reading ends: at the end of the word or, if not every closer found
its opener, at the first that did not. -/
structure Nesting where
  matched : Bool
  opened : List Pair
  deriving DecidableEq

def nest (opened : List Pair) : List Mark → Nesting
  | [] => ⟨true, opened⟩
  | mark :: word =>
    match mark.step? opened with
    | none => ⟨false, opened⟩
    | some opened => nest opened word

@[simp] theorem nest_nil (opened : List Pair) : nest opened [] = ⟨true, opened⟩ := rfl

@[simp] theorem nest_opens (opened : List Pair) (pair : Pair) (word : List Mark) :
    nest opened (.opens pair :: word) = nest (pair :: opened) word := rfl

@[simp] theorem nest_closes_self (opened : List Pair) (pair : Pair) (word : List Mark) :
    nest (pair :: opened) (.closes pair :: word) = nest opened word := by
  simp [nest, Mark.step?]

theorem nest_append_of_matched {opened : List Pair} {u : List Mark} {later : List Pair}
    (h : nest opened u = ⟨true, later⟩) (v : List Mark) :
    nest opened (u ++ v) = nest later v := by
  induction u generalizing opened with
  | nil =>
      cases h
      rfl
  | cons mark u ih =>
      cases hmark : mark.step? opened with
      | none => simp [nest, hmark] at h
      | some next =>
          simp only [nest, hmark] at h
          simp only [List.cons_append, nest, hmark]
          exact ih h

theorem nest_append_of_not_matched {opened : List Pair} {u : List Mark}
    (h : (nest opened u).matched = false) (v : List Mark) :
    nest opened (u ++ v) = nest opened u := by
  induction u generalizing opened with
  | nil => simp at h
  | cons mark u ih =>
      cases hmark : mark.step? opened with
      | none => simp [nest, hmark]
      | some next =>
          simp only [nest, hmark] at h
          simp only [List.cons_append, nest, hmark]
          exact ih h

theorem Balanced.nest_eq {word : List Mark} (h : Balanced word) (opened : List Pair) :
    nest opened word = ⟨true, opened⟩ := by
  induction h generalizing opened with
  | nil => rfl
  | wrap pair hinner hrest ihinner ihrest =>
      rw [nest_opens, nest_append_of_matched (ihinner (pair :: opened)), nest_closes_self]
      exact ihrest opened

theorem Balanced.append {u v : List Mark} (hu : Balanced u) (hv : Balanced v) :
    Balanced (u ++ v) := by
  induction hu with
  | nil => exact hv
  | wrap pair hinner hrest ihinner ihrest =>
      simpa only [List.cons_append, List.append_assoc] using Balanced.wrap pair hinner ihrest

/-- The word closes the pairs that stand open, the innermost first, and is
balanced before, between and after these closers. -/
def Completes : List Pair → List Mark → Prop
  | [], word => Balanced word
  | pair :: opened, word =>
      ∃ inner rest, word = inner ++ .closes pair :: rest ∧ Balanced inner ∧ Completes opened rest

theorem completes_append {u rest : List Mark} {opened : List Pair} (hu : Balanced u)
    (h : Completes opened rest) : Completes opened (u ++ rest) := by
  cases opened with
  | nil => exact hu.append h
  | cons pair opened =>
      obtain ⟨inner, after, rfl, hinner, hafter⟩ := h
      exact ⟨u ++ inner, after, by simp, hu.append hinner, hafter⟩

/-- A word that is read to its end with nothing left open has closed all that
stood open. The induction is on the word: an opener wraps what closes it. -/
theorem completes_of_nest {opened : List Pair} {word : List Mark}
    (h : nest opened word = ⟨true, []⟩) : Completes opened word := by
  induction word generalizing opened with
  | nil =>
      cases h
      exact .nil
  | cons mark word ih =>
      cases mark with
      | opens pair =>
          obtain ⟨inner, rest, rfl, hinner, hrest⟩ := ih h
          have hwrap : Balanced (.opens pair :: (inner ++ .closes pair :: [])) :=
            .wrap pair hinner .nil
          simpa using completes_append hwrap hrest
      | closes pair =>
          cases opened with
          | nil => simp [nest, Mark.step?] at h
          | cons innermost opened =>
              by_cases hpair : innermost = pair
              · subst hpair
                rw [nest_closes_self] at h
                exact ⟨[], word, rfl, .nil, ih h⟩
              · simp [nest, Mark.step?, hpair] at h

theorem balanced_iff_nest (word : List Mark) : Balanced word ↔ nest [] word = ⟨true, []⟩ :=
  ⟨fun h => h.nest_eq [], completes_of_nest⟩

/-- Closing the innermost pairs leaves the others open. -/
theorem nest_take_closers (opened : List Pair) (k : Nat) :
    nest opened ((opened.take k).map .closes) = ⟨true, opened.drop k⟩ := by
  induction opened generalizing k with
  | nil => simp
  | cons pair opened ih =>
      cases k with
      | zero => rfl
      | succ k =>
          rw [List.take_succ_cons, List.map_cons, nest_closes_self, ih, List.drop_succ_cons]

theorem nest_closers (opened : List Pair) : nest opened (opened.map .closes) = ⟨true, []⟩ := by
  simpa using nest_take_closers opened opened.length

theorem viable_iff_matched (word : List Mark) :
    Viable word ↔ (nest [] word).matched = true := by
  constructor
  · intro ⟨rest, hrest⟩
    cases hmatched : (nest [] word).matched with
    | true => rfl
    | false =>
        have hstop := nest_append_of_not_matched hmatched rest
        rw [hrest.nest_eq] at hstop
        simp [← hstop] at hmatched
  · intro h
    refine ⟨(nest [] word).opened.map .closes, ?_⟩
    have hread : nest [] word = ⟨true, (nest [] word).opened⟩ := by rw [← h]
    rw [balanced_iff_nest, nest_append_of_matched hread, nest_closers]

end CxxUnits
