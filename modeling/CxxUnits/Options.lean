import CxxUnits.Settings

/-!
The options of the command line. Arguments are read from left to right. A value
or a file is only put in place when the next known argument, or the end, shows
that nothing more belongs to it; a fault of the argument at hand is therefore
reported before a fault of the one still waiting.
-/
namespace CxxUnits

structure Options where
  /-- Read this file instead of the standard input. -/
  file : Option String := none
  history : Option String := none
  noHistory : Bool := false
  separator : Option String := none
  /-- How often `-v` was given, at most 255 times. -/
  verbosity : Nat := 0
  deriving DecidableEq

/-- Why the arguments are no options. A request for help or for the version is
answered instead of running the program. -/
inductive UsageError
  | unknownArgument
  | invalidValue
  | tooManyValues
  | repeated
  | helpRequested
  | versionRequested
  deriving DecidableEq

namespace Options

/-- The line printed after every unit, empty unless one is given. -/
def separatorLine (options : Options) : String :=
  options.separator.getD ""

def joinPath (directory name : String) : String :=
  if directory.toList.getLast?.all (· == '/') then directory ++ name
  else directory ++ "/" ++ name

def historyPath (options : Options) (home : Option String) : Option String :=
  if options.noHistory then none
  else options.history.or (home.map (joinPath · Settings.historyFile))

def logLevel (options : Options) : String :=
  Settings.logLevel options.verbosity

inductive Named
  | history
  | separator
  deriving DecidableEq

inductive Switch
  | noHistory
  | verbose
  | help
  | version
  deriving DecidableEq

/-- What has been read but not yet put in place. -/
inductive Pending
  | nothing
  /-- An option that waits for its value. -/
  | awaiting (name : Named)
  | value (name : Named) (text : String)
  | file (path : String)
  deriving DecidableEq

/-- How far the arguments have been read. -/
structure Reading where
  options : Options := {}
  pending : Pending := .nothing
  /-- A file has been read, in place or not. -/
  hasFile : Bool := false
  /-- Two dashes have been read: all that follows is a file. -/
  filesOnly : Bool := false
  deriving DecidableEq

def checkPath (path : String) : Except UsageError String :=
  if path = "" then .error .invalidValue else .ok path

def setNamed (options : Options) (text : String) : Named → Except UsageError Options
  | .history =>
    if options.history.isSome then .error .repeated
    else (checkPath text).map fun path => { options with history := some path }
  | .separator =>
    if options.separator.isSome then .error .repeated
    else .ok { options with separator := some text }

def setSwitch (options : Options) : Switch → Except UsageError Options
  | .noHistory =>
    if options.noHistory then .error .repeated else .ok { options with noHistory := true }
  | .verbose => .ok { options with verbosity := min 255 (options.verbosity + 1) }
  | .help => .error .helpRequested
  | .version => .error .versionRequested

def settle (reading : Reading) : Except UsageError Options :=
  match reading.pending with
  | .nothing => .ok reading.options
  | .awaiting _ => .error .invalidValue
  | .value name text => setNamed reading.options text name
  | .file path => (checkPath path).map fun path => { reading.options with file := some path }

def Named.ofLong? (name : List Char) : Option Named :=
  if name = "history".toList then some .history
  else if name = "separator".toList then some .separator
  else none

def Switch.ofLong? (name : List Char) : Option Switch :=
  if name = "no-history".toList then some .noHistory
  else if name = "verbose".toList then some .verbose
  else if name = "help".toList then some .help
  else if name = "version".toList then some .version
  else none

def Switch.ofShort? : Char → Option Switch
  | 'v' => some .verbose
  | 'h' => some .help
  | 'V' => some .version
  | _ => none

def readSwitch (reading : Reading) (switch : Switch) : Except UsageError Reading := do
  let options ← setSwitch (← settle reading) switch
  return { reading with options, pending := .nothing }

def readLong (reading : Reading) (name : List Char) (value? : Option String) :
    Except UsageError Reading :=
  match Named.ofLong? name, value? with
  | some option, some text => do
    let options ← setNamed (← settle reading) text option
    return { reading with options, pending := .nothing }
  | some option, none => do
    return { reading with options := ← settle reading, pending := .awaiting option }
  | none, value? =>
    match Switch.ofLong? name, value? with
    | some _, some _ => .error .tooManyValues
    | some switch, none => readSwitch reading switch
    | none, _ => .error .unknownArgument

/-- Read the letters after one dash, each a switch. -/
def readShort (reading : Reading) : List Char → Except UsageError Reading
  | [] => .ok reading
  | c :: cs =>
    match Switch.ofShort? c with
    | some switch => do readShort (← readSwitch reading switch) cs
    | none => .error .unknownArgument

/-- Read an argument that is no option: the value that an option waits for, or
the one file. -/
def readPlain (reading : Reading) (text : String) : Except UsageError Reading :=
  match reading.filesOnly, reading.pending with
  | false, .awaiting name => .ok { reading with pending := .value name text }
  | _, _ =>
    if reading.hasFile then .error .unknownArgument
    else do
      return { reading with options := ← settle reading, pending := .file text, hasFile := true }

def readArgument (reading : Reading) (argument : String) : Except UsageError Reading :=
  if reading.filesOnly then readPlain reading argument
  else match argument.toList with
    | ['-', '-'] => .ok { reading with filesOnly := true }
    | '-' :: '-' :: long =>
      let name := long.takeWhile (· != '=')
      readLong reading name <|
        match long.drop name.length with
        | [] => none
        | _ :: value => some (String.ofList value)
    | '-' :: c :: cs => readShort reading (c :: cs)
    | _ => readPlain reading argument

def parse (arguments : List String) : Except UsageError Options := do
  settle (← arguments.foldlM readArgument {})

end Options

end CxxUnits
