import CxxUnits.Balance.Opener

/-!
The openers still unmatched, the latest on top. Angles are marks on the stack:
a closer goes through those above the opener it needs, and what counts as
pending leaves them out.
-/
namespace CxxUnits

structure BalanceStack where
  /-- The openers, top first. -/
  entries : List Opener := []
  deriving DecidableEq

namespace BalanceStack

def empty : BalanceStack := {}

def push (stack : BalanceStack) (opener : Opener) : BalanceStack :=
  ⟨opener :: stack.entries⟩

def pop (stack : BalanceStack) : BalanceStack :=
  ⟨stack.entries.tail⟩

def top? (stack : BalanceStack) : Option Opener :=
  stack.entries.head?

def size (stack : BalanceStack) : Nat :=
  stack.entries.length

def isEmpty (stack : BalanceStack) : Bool :=
  stack.entries.isEmpty

/-- The openers in the order they were pushed. -/
def toList (stack : BalanceStack) : List Opener :=
  stack.entries.reverse

def discardAngles (stack : BalanceStack) : BalanceStack :=
  ⟨stack.entries.dropWhile Opener.isAngle⟩

def hard (stack : BalanceStack) : List Opener :=
  stack.entries.filter (!·.isAngle)

def pendingSize (stack : BalanceStack) : Nat :=
  stack.hard.length

def hasPending (stack : BalanceStack) : Bool :=
  stack.entries.any (!·.isAngle)

/-- Close the topmost opener that is not an angle, if it is the one wanted. -/
def close? (stack : BalanceStack) (wanted : Opener) : Option BalanceStack :=
  match stack.discardAngles.entries with
  | [] => none
  | opener :: rest => if opener = wanted then some ⟨rest⟩ else none

/-- A closing brace that leaves a single angle closes that too: the braces were
part of a template argument. -/
def closeBracket? (stack : BalanceStack) (b : Bracket) : Option BalanceStack :=
  (stack.close? (.bracket b)).map fun rest =>
    if b = .brace ∧ rest.entries = [.angle] then empty else rest

def closeAngles : Nat → BalanceStack → BalanceStack
  | n + 1, ⟨.angle :: rest⟩ => closeAngles n ⟨rest⟩
  | _, stack => stack

@[simp] theorem hard_empty : empty.hard = [] := rfl

@[simp] theorem hard_push_angle (stack : BalanceStack) :
    (stack.push .angle).hard = stack.hard := rfl

theorem hard_push {opener : Opener} (stack : BalanceStack) (h : opener.isAngle = false) :
    (stack.push opener).hard = opener :: stack.hard := by
  simp [hard, push, h]

theorem hasPending_iff {stack : BalanceStack} : stack.hasPending = true ↔ stack.hard ≠ [] := by
  simp [hasPending, hard, List.filter_eq_nil_iff]

@[simp] theorem hard_discardAngles (stack : BalanceStack) :
    stack.discardAngles.hard = stack.hard := by
  obtain ⟨entries⟩ := stack
  simp only [discardAngles, hard]
  induction entries with
  | nil => rfl
  | cons opener rest ih => cases h : opener.isAngle <;> simp_all

@[simp] theorem hard_closeAngles (n : Nat) (stack : BalanceStack) :
    (closeAngles n stack).hard = stack.hard := by
  fun_induction closeAngles n stack with
  | case1 n rest ih => rw [ih]; rfl
  | case2 => rfl

end BalanceStack

end CxxUnits
