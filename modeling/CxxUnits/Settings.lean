/-!
The fixed settings of the program.
-/
namespace CxxUnits.Settings

def version : String := "0.4.0"

def prompt : String := "cxx> "

def continuationPrompt : String := "...> "

def historyFile : String := ".cxxrepl_history"

def logLevel : Nat → String
  | 0 => "warn"
  | 1 => "info"
  | 2 => "debug"
  | _ => "trace"

end CxxUnits.Settings
