import CxxUnits.Token.Kind

/-!
What can stand open: a bracket, a conditional that waits for its `endif`, or an
angle that may open a template argument list. An angle is soft. It may as well
be a comparison, so it never keeps a unit open on its own.
-/
namespace CxxUnits

inductive Opener
  | bracket (bracket : Bracket)
  | conditional
  | angle
  deriving DecidableEq

def TokenKind.opener? : TokenKind → Option Opener
  | .opening b => some (.bracket b)
  | _ => none

/-- The opener that a closing bracket must find on top. -/
def TokenKind.closes? : TokenKind → Option Opener
  | .closing b => some (.bracket b)
  | _ => none

namespace Opener

def closer? : Opener → Option TokenKind
  | bracket b => some (.closing b)
  | _ => none

def isAngle : Opener → Bool
  | angle => true
  | _ => false

@[simp] theorem isAngle_bracket (b : Bracket) : (bracket b).isAngle = false := rfl

@[simp] theorem isAngle_conditional : conditional.isAngle = false := rfl

@[simp] theorem isAngle_angle : angle.isAngle = true := rfl

end Opener

end CxxUnits
