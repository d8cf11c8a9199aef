/-!
Positions in a text, counted in UTF-8 bytes. A position is valid when it falls
between two characters or at an end; `splitAtByte?` cuts there and refuses every
other position.
-/
namespace CxxUnits.Text

/-- How many bytes the characters take in UTF-8. -/
def byteLength : List Char → Nat
  | [] => 0
  | c :: cs => c.utf8Size + byteLength cs

/-- The characters before and after byte `n`, if `n` does not fall inside a
character or beyond the end. -/
def splitAtByte? : Nat → List Char → Option (List Char × List Char)
  | 0, cs => some ([], cs)
  | _ + 1, [] => none
  | n + 1, c :: cs =>
    if c.utf8Size ≤ n + 1 then
      (splitAtByte? (n + 1 - c.utf8Size) cs).map fun (before, after) => (c :: before, after)
    else none

/-- The characters from byte `start` up to byte `stop`; none when the range is
reversed, leaves the text, or cuts a character. -/
def slice? (text : String) (start stop : Nat) : Option String :=
  if start ≤ stop then
    match splitAtByte? start text.toList with
    | none => none
    | some (_, after) =>
      (splitAtByte? (stop - start) after).map fun (found, _) => String.ofList found
  else none

@[simp] theorem byteLength_nil : byteLength [] = 0 := rfl

@[simp] theorem byteLength_cons (c : Char) (cs : List Char) :
    byteLength (c :: cs) = c.utf8Size + byteLength cs := rfl

@[simp] theorem byteLength_append (xs ys : List Char) :
    byteLength (xs ++ ys) = byteLength xs + byteLength ys := by
  induction xs with
  | nil => simp
  | cons c cs ih => simp [ih, Nat.add_assoc]

@[simp] theorem splitAtByte?_zero (cs : List Char) : splitAtByte? 0 cs = some ([], cs) := by
  simp [splitAtByte?]

theorem splitAtByte?_cons {n : Nat} (c : Char) (cs : List Char) (hn : n ≠ 0) :
    splitAtByte? n (c :: cs) =
      if c.utf8Size ≤ n then
        (splitAtByte? (n - c.utf8Size) cs).map fun (before, after) => (c :: before, after)
      else none := by
  cases n with
  | zero => contradiction
  | succ n => rfl

theorem splitAtByte?_byteLength (xs ys : List Char) :
    splitAtByte? (byteLength xs) (xs ++ ys) = some (xs, ys) := by
  induction xs with
  | nil => simp
  | cons c cs ih =>
      have hc : c.utf8Size + byteLength cs ≠ 0 := by have := c.utf8Size_pos; omega
      simp [splitAtByte?_cons c _ hc, ih]

/-- Cutting loses nothing, and the cut is where it was asked for. -/
theorem eq_append_of_splitAtByte? {n : Nat} {cs xs ys : List Char}
    (h : splitAtByte? n cs = some (xs, ys)) : cs = xs ++ ys ∧ byteLength xs = n := by
  fun_induction splitAtByte? n cs generalizing xs with
  | case1 cs => simp_all
  | case2 => simp at h
  | case3 n c cs hle ih =>
      obtain ⟨⟨before, after⟩, hrest, hpair⟩ := Option.map_eq_some_iff.1 h
      obtain ⟨rfl, rfl⟩ := Prod.mk.inj hpair
      obtain ⟨hcs, hlen⟩ := ih hrest
      exact ⟨by simp [hcs], by simp [hlen]; omega⟩
  | case4 => simp at h

end CxxUnits.Text
