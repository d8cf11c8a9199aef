/-!
Finite sets of words, kept as the strictly increasing list of their members.
Words are ordered by code point, which is also the order of their UTF-8 bytes.
-/
namespace CxxUnits.Text

/-- Put a word in its place in an increasing list, unless it is there already. -/
def insertWord (word : String) : List String → List String
  | [] => [word]
  | other :: rest =>
    if word < other then word :: other :: rest
    else if word = other then other :: rest
    else other :: insertWord word rest

@[simp] theorem mem_insertWord {w word : String} {words : List String} :
    w ∈ insertWord word words ↔ w = word ∨ w ∈ words := by
  induction words with
  | nil => simp [insertWord]
  | cons other rest ih =>
      simp only [insertWord]
      split
      · simp
      · split
        · next h => subst h; simp
        · simp only [List.mem_cons, ih, or_left_comm]

private theorem lt_of_not_lt_of_ne {a b : String} (h : ¬a < b) (hne : a ≠ b) : b < a := by
  have hle := String.not_lt.1 h
  exact Decidable.byContradiction fun hba =>
    hne (String.le_antisymm (String.not_lt.1 hba) hle)

theorem increasing_insertWord {word : String} {words : List String}
    (h : words.Pairwise (· < ·)) : (insertWord word words).Pairwise (· < ·) := by
  induction words with
  | nil => simp [insertWord]
  | cons other rest ih =>
      obtain ⟨hother, hrest⟩ := List.pairwise_cons.1 h
      simp only [insertWord]
      split
      · next hlt =>
        refine List.pairwise_cons.2 ⟨fun w hw => ?_, h⟩
        rcases List.mem_cons.1 hw with rfl | hw
        · exact hlt
        · exact String.lt_trans hlt (hother w hw)
      · split
        · exact h
        · next hlt hne =>
          refine List.pairwise_cons.2 ⟨fun w hw => ?_, ih hrest⟩
          rcases mem_insertWord.1 hw with rfl | hw
          · exact lt_of_not_lt_of_ne hlt hne
          · exact hother w hw

structure WordSet where
  toList : List String
  increasing : toList.Pairwise (· < ·)

namespace WordSet

def empty : WordSet := ⟨[], .nil⟩

instance : Inhabited WordSet := ⟨empty⟩

instance : Membership String WordSet := ⟨fun set word => word ∈ set.toList⟩

def insert (set : WordSet) (word : String) : WordSet :=
  ⟨insertWord word set.toList, increasing_insertWord set.increasing⟩

def insertMany (set : WordSet) (words : List String) : WordSet :=
  words.foldl insert set

def ofList (words : List String) : WordSet :=
  empty.insertMany words

theorem mem_def {set : WordSet} {word : String} : word ∈ set ↔ word ∈ set.toList := Iff.rfl

@[simp] theorem toList_empty : empty.toList = [] := rfl

@[simp] theorem not_mem_empty (word : String) : ¬word ∈ empty := List.not_mem_nil

@[simp] theorem mem_insert {set : WordSet} {word w : String} :
    w ∈ set.insert word ↔ w = word ∨ w ∈ set := mem_insertWord

@[simp] theorem mem_insertMany {set : WordSet} {words : List String} {w : String} :
    w ∈ set.insertMany words ↔ w ∈ words ∨ w ∈ set := by
  unfold insertMany
  induction words generalizing set with
  | nil => simp
  | cons word rest ih => simp [ih, or_left_comm, or_assoc]

@[simp] theorem mem_ofList {words : List String} {w : String} :
    w ∈ ofList words ↔ w ∈ words := by
  simp [ofList]

end WordSet

end CxxUnits.Text
