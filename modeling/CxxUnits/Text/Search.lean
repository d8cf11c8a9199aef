/-!
Searching a text for the mark that ends a stretch of it.
-/
namespace CxxUnits.Text

/-- How many characters lie up to and including the first occurrence of `mark`;
all of them when it does not occur. -/
def endAfter (mark : List Char) : List Char → Nat
  | [] => 0
  | c :: cs => if mark.isPrefixOf (c :: cs) then mark.length else endAfter mark cs + 1

theorem endAfter_le (mark cs : List Char) : endAfter mark cs ≤ cs.length := by
  induction cs with
  | nil => simp [endAfter]
  | cons c cs ih =>
      simp only [endAfter]
      split
      · next h => exact (List.isPrefixOf_iff_prefix.1 h).length_le
      · simp only [List.length_cons]; omega

end CxxUnits.Text
