import CxxUnits.Balance.Item
import CxxUnits.Balance.Verdict

/-!
One pass over the items of a fragment, from a stack of openers to a verdict. A
scan stops at the end of the items, at a lone hash, or at the first item that
closes what is not open.
-/
namespace CxxUnits

structure Scan where
  /-- Every closer found its opener. -/
  matched : Bool
  /-- The kind of the item before the place where the scan stopped. -/
  before : Option TokenKind
  stack : BalanceStack
  /-- How many lexemes were asked for, an end of input included. -/
  taken : Nat
  deriving DecidableEq

namespace Scan

def after (n : Nat) (scan : Scan) : Scan :=
  { scan with taken := scan.taken + n }

/-- The scan from a stack, `before` being the kind of the item just read. -/
def run (stack : BalanceStack) (before : Option TokenKind) : List Item → Scan
  | [] => ⟨true, before, stack, 1⟩
  | .loneHash :: _ => ⟨true, before, stack, 2⟩
  | item :: rest =>
    match item.update? stack with
    | none => ⟨false, before, stack.discardAngles, item.width⟩
    | some stack => (run stack (some item.kind) rest).after item.width

/-- A comma just before the scan stopped asks for more even where a closer is
wrong. A backslash at the end of a line does not. -/
def verdict (scan : Scan) : Verdict :=
  if scan.before = some .comma then .incomplete
  else if !scan.matched then .invalid
  else if scan.stack.hasPending then .incomplete
  else .complete

theorem verdict_ne_unknown (scan : Scan) : scan.verdict ≠ .unknown := by
  unfold verdict
  repeat' split
  all_goals simp

end Scan

end CxxUnits
