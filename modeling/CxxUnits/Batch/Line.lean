/-!
The lines of a byte stream. A line feed ends a line, together with a carriage
return just before it, and what follows the last one is a line unless it is
empty. Each line has to be UTF-8 by itself.
-/
namespace CxxUnits.Batch

inductive ReadFault
  | notFound
  | isDirectory
  | invalidText
  | other (description : String)
  deriving DecidableEq

def ReadFault.message : ReadFault → String
  | notFound => "No such file or directory (os error 2)"
  | isDirectory => "Is a directory (os error 21)"
  | invalidText => "stream did not contain valid UTF-8"
  | other description => description

def lineFeed : UInt8 := 10

def carriageReturn : UInt8 := 13

/-- The end of a line, its last byte first, without a carriage return. -/
def stripReturn : List UInt8 → List UInt8
  | [] => []
  | b :: bs => if b = carriageReturn then bs else b :: bs

/-- The lines of a stream in the middle of a line, `begun` being what has been
read of that line, last byte first. -/
def linesFrom (begun : List UInt8) : List UInt8 → List (List UInt8)
  | [] => if begun = [] then [] else [begun.reverse]
  | b :: bs =>
    if b = lineFeed then (stripReturn begun).reverse :: linesFrom [] bs
    else linesFrom (b :: begun) bs

def decodeLine (bytes : List UInt8) : Except ReadFault String :=
  match String.fromUTF8? bytes.toByteArray with
  | some line => .ok line
  | none => .error .invalidText

def linesOf (bytes : List UInt8) : List (Except ReadFault String) :=
  (linesFrom [] bytes).map decodeLine

end CxxUnits.Batch
