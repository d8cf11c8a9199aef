/-!
What the input collected so far amounts to.
-/
namespace CxxUnits

inductive Verdict
  /-- A unit that stands on its own. -/
  | complete
  /-- More input has to come before the unit can close. -/
  | incomplete
  /-- A closer without its opener; no further input can mend it. -/
  | invalid
  /-- Kept for readers that cannot tell; no scan answers it. -/
  | unknown
  deriving DecidableEq

namespace Verdict

instance : Inhabited Verdict := ⟨complete⟩

def text : Verdict → String
  | complete => "complete"
  | incomplete => "incomplete"
  | invalid => "invalid"
  | unknown => "unknown"

end Verdict

end CxxUnits
