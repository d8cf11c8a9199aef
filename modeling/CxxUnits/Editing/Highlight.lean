import CxxUnits.Editing.Keyword
import CxxUnits.Token.Lexer

/-!
Colouring a line for a terminal. Each piece of the line is shown as it stands or
between the code of one colour and the code that ends it.
-/
namespace CxxUnits.Editing

inductive Colour
  | yellow
  | magenta
  | cyan
  | green
  | grey
  deriving DecidableEq

def Colour.code : Colour → String
  | yellow => "\x1b[33m"
  | magenta => "\x1b[35m"
  | cyan => "\x1b[36m"
  | green => "\x1b[32m"
  | grey => "\x1b[90m"

def resetCode : String := "\x1b[0m"

/-- The colour of a token. An identifier just after a hash names a directive,
whatever else it is. -/
def colour? (kind : TokenKind) (text : String) (afterHash : Bool) : Option Colour :=
  match kind with
  | .string | .character => some .yellow
  | .number => some .cyan
  | .comment => some .grey
  | .hash | .hashHash => some .green
  | .identifier =>
    if afterHash then some .green
    else if text ∈ keywords then some .magenta
    else none
  | _ => none

structure Segment where
  text : String
  colour? : Option Colour
  deriving DecidableEq

def Segment.render (segment : Segment) : String :=
  match segment.colour? with
  | some colour => colour.code ++ segment.text ++ resetCode
  | none => segment.text

/-- The segments of a run of pieces; `afterHash` tells whether the token before
them is a hash. Gaps have no colour and come between a hash and its name. -/
def segments (afterHash : Bool) : List Piece → List Segment
  | [] => []
  | piece :: rest =>
    let text := String.ofList piece.text
    match piece.kind? with
    | some kind => ⟨text, colour? kind text afterHash⟩ :: segments (kind = .hash) rest
    | none => ⟨text, none⟩ :: segments afterHash rest

def highlight (line : String) : String :=
  String.join ((segments false (pieces line.toList)).map Segment.render)

end CxxUnits.Editing
