import CxxUnits.Balance.Stack
import CxxUnits.Text.Blank

/-!
The items that lexemes are read as. A hash and the lexeme after it are one item,
a directive, which is known by the spelling of its name alone; every other
lexeme is an item by itself.
-/
namespace CxxUnits

open Text

inductive Directive
  | opens
  | closes
  | other
  deriving DecidableEq

/-- The name of a closing directive: `endif`, then nothing, a slash or white space. -/
def isEndif (name : List Char) : Bool :=
  "endif".toList.isPrefixOf name &&
    match name.drop 5 with
    | [] => true
    | c :: _ => c == '/' || isBlank c

/-- Every name that begins with `if` opens a conditional. -/
def Directive.ofName (name : List Char) : Directive :=
  if "if".toList.isPrefixOf name then .opens
  else if isEndif name then .closes
  else .other

inductive Item
  | token (kind : TokenKind)
  | directive (name : Lexeme)
  /-- A hash that nothing follows. -/
  | loneHash
  deriving DecidableEq

namespace Item

def group : List Lexeme → List Item
  | [] => []
  | lexeme :: rest =>
    if lexeme.kind = .hash then
      match rest with
      | [] => [loneHash]
      | name :: rest => directive name :: group rest
    else token lexeme.kind :: group rest

/-- The kind an item shows to what follows it; a directive shows its name's. -/
def kind : Item → TokenKind
  | token kind => kind
  | directive name => name.kind
  | loneHash => .hash

/-- How many lexemes an item is read from. -/
def width : Item → Nat
  | token _ => 1
  | directive _ => 2
  | loneHash => 1

/-- What an item makes of the stack; nothing if it closes what is not open. -/
def update? : Item → BalanceStack → Option BalanceStack
  | token (.opening b), stack => some (stack.push (.bracket b))
  | token (.closing b), stack => stack.closeBracket? b
  | token .less, stack => some (stack.push .angle)
  | token .greater, stack => some (stack.closeAngles 1)
  | token .greaterGreater, stack => some (stack.closeAngles 2)
  | token .semicolon, stack => some stack.discardAngles
  | token _, stack => some stack
  | directive name, stack =>
    match Directive.ofName name.text.toList with
    | .opens => some (stack.push .conditional)
    | .closes => stack.close? .conditional
    | .other => some stack
  | loneHash, stack => some stack

end Item

end CxxUnits
