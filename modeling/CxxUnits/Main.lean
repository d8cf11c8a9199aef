import CxxUnits.Batch.Run
import CxxUnits.Options

/-!
The command line program: it reads its input, runs a session over it and shows
the outcome. Without a file it reads the standard input, line by line with a
prompt if that is a terminal and as one batch if not. Its log is off.

At a terminal there is no line editor. Lines are not coloured or completed and no
history is kept. An interrupt ends the program, where an editor would have the session
cancel the open turn and go on, so the greeting has no word of it.
-/
namespace CxxUnits.Main

open Batch

def usage : String :=
  "Usage: cxxrepl [--history <PATH>] [--no-history] [--separator <SEPARATOR>] [-v]... [FILE]"

def usageMessage : UsageError → String
  | .unknownArgument => "unexpected argument"
  | .invalidValue => "a value is missing or empty"
  | .tooManyValues => "a value for an option that takes none"
  | .repeated => "an option given more than once"
  | .helpRequested | .versionRequested => ""

def readFault : IO.Error → ReadFault
  | .noFileOrDirectory .. => .notFound
  | .inappropriateType .. => .isDirectory
  | error => .other (toString error)

def attempt {α : Type} (action : IO α) : IO (Except ReadFault α) := do
  try return .ok (← action)
  catch error => return .error (readFault error)

partial def readAll (stream : IO.FS.Stream) (read : ByteArray := .empty) : IO ByteArray := do
  let bytes ← stream.read 65536
  if bytes.isEmpty then return read else readAll stream (read ++ bytes)

def readLines (stream : IO.FS.Stream) : IO (List (Except ReadFault String)) := do
  match ← attempt (readAll stream) with
  | .ok bytes => return linesOf bytes.toList
  | .error fault => return [.error fault]

def readFile (path : String) : IO (Except RunError (List (Except ReadFault String))) := do
  match ← attempt (IO.FS.Handle.mk path .read) with
  | .ok handle => return .ok (← readLines (.ofHandle handle))
  | .error fault => return .error (.cannotOpen path fault)

def runBatch (options : Options) (input : Except RunError (List (Except ReadFault String))) :
    IO UInt32 := do
  let answer := (report input).answer options.separatorLine .off
  IO.print answer.stdout
  IO.eprint answer.stderr
  return answer.exitCode

/-- The line `.quit`, with or without white space around it. -/
def isQuit (line : String) : Bool :=
  let trimmed := (line.toList.dropWhile Text.isBlank).reverse.dropWhile Text.isBlank
  trimmed.reverse == ".quit".toList

/-- Prompt for lines until the input ends or a line outside a turn says `.quit`.
Answers whether every turn was accepted. -/
partial def interact (stdin stdout : IO.FS.Stream) (session : Session FragmentLexer) :
    IO Bool := do
  stdout.putStr session.prompt
  stdout.flush
  let line ← stdin.getLine
  if line.isEmpty then
    if session.finish.1.isSome then IO.eprintln "warning: incomplete input discarded"
    stdout.putStrLn ""
    return session.rejected == 0
  let line := (line.dropSuffix "\n").copy
  if !session.isContinuing && isQuit line then
    return session.rejected == 0
  match session.feed line with
  | .error error =>
    IO.eprintln error.message
    return false
  | .ok (outcome, session) =>
    match outcome with
    | .blank | .more => pure ()
    | .ready unit => stdout.putStrLn unit
    | .rejected _ => IO.eprintln "error: unbalanced input, discarded"
    interact stdin stdout session

def runInteractive (stdin stdout : IO.FS.Stream) : IO UInt32 := do
  stdout.putStrLn s!"cxxrepl {Settings.version}"
  stdout.putStrLn "Type '.quit' to quit, Ctrl-D for EOF"
  stdout.putStrLn ""
  return if ← interact stdin stdout (.start {}) then 0 else 1

def run (options : Options) : IO UInt32 := do
  match options.file with
  | some path => runBatch options (← readFile path)
  | none =>
    let stdin ← IO.getStdin
    if ← stdin.isTty then runInteractive stdin (← IO.getStdout)
    else runBatch options (.ok (← readLines stdin))

end CxxUnits.Main

def main (arguments : List String) : IO UInt32 := do
  match CxxUnits.Options.parse arguments with
  | .ok options => CxxUnits.Main.run options
  | .error .helpRequested =>
    IO.println CxxUnits.Main.usage
    return 0
  | .error .versionRequested =>
    IO.println s!"cxxrepl {CxxUnits.Settings.version}"
    return 0
  | .error error =>
    IO.eprintln s!"error: {CxxUnits.Main.usageMessage error}"
    IO.eprintln CxxUnits.Main.usage
    return 2
