import CxxUnits.Proofs.Batch.Stretches
import Mathlib.Data.List.Basic

/-!
A line that is no text, behind lines that are. What the lines before it came to has been
printed by then and stays printed, and what was said of them stays said; a turn that was
open is not mentioned.
-/
namespace CxxUnits.Batch

open Text Session

def Event.isUnbalanced : Event → Bool
  | unbalanced _ _ _ => true
  | _ => false

section Bytes

variable {bytes : List UInt8}

end Bytes

end CxxUnits.Batch
