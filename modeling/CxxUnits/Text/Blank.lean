/-!
Two sets of white space. `isBlank` is the Unicode property White_Space, by which
a line counts as blank and by which directive names and raw-string delimiters
end. `isGap` is the smaller set that the lexer skips between tokens.
-/
namespace CxxUnits.Text

/-- The twenty-five characters with the Unicode property White_Space. -/
def isBlank (c : Char) : Bool :=
  let n := c.toNat
  (0x09 ≤ n && n ≤ 0x0D) || n == 0x20 || n == 0x85 || n == 0xA0 || n == 0x1680 ||
    (0x2000 ≤ n && n ≤ 0x200A) || n == 0x2028 || n == 0x2029 || n == 0x202F ||
    n == 0x205F || n == 0x3000

/-- Space, tab, carriage return, line feed, form feed and vertical tab. -/
def isGap (c : Char) : Bool :=
  c == ' ' || c == '\t' || c == '\r' || c == '\n' || c == '\x0c' || c == '\x0b'

def isBlankLine (line : String) : Bool :=
  line.toList.all isBlank

theorem isBlank_of_isGap {c : Char} (h : isGap c = true) : isBlank c = true := by
  simp only [isGap, Bool.or_eq_true, beq_iff_eq] at h
  rcases h with ((((rfl | rfl) | rfl) | rfl) | rfl) | rfl <;> rfl

theorem isBlankLine_empty : isBlankLine "" = true := rfl

end CxxUnits.Text
