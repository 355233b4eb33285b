import ManifestShell.Error

/-! The settings of the shell, their defaults and what makes them usable. -/
namespace ManifestShell

inductive OutputFormat where
  | plain
  | json
  deriving DecidableEq, Repr

inductive LogLevel where
  | error
  | warn
  | info
  | debug
  | trace
  deriving DecidableEq, Repr

structure CompletionSettings where
  /-- Show every candidate when none matches what is typed. -/
  fallbackToAll : Bool := true
  pathCompletion : Bool := true
  documentCompletion : Bool := true
  /-- How many entries of the file system are looked at for one line. -/
  maxPathMatches : Nat := 256
  deriving DecidableEq, Repr

structure DisplaySettings where
  colorOutput : Bool := true
  format : OutputFormat := .plain
  deriving DecidableEq, Repr

structure HistorySettings where
  maxSize : Nat := 1000
  filePath : Text
  persist : Bool := true
  deriving DecidableEq, Repr

structure LoggingSettings where
  level : LogLevel := .warn
  timestamps : Bool := true
  deriving DecidableEq, Repr

structure Settings where
  completion : CompletionSettings := {}
  display : DisplaySettings := {}
  history : HistorySettings
  logging : LoggingSettings := {}
  deriving DecidableEq, Repr

namespace OutputFormat

def name : OutputFormat → Text
  | plain => "plain"
  | json => "json"

def ofName? (t : Text) : Option OutputFormat :=
  if t = "plain".toList then some plain else if t = "json".toList then some json else none

/-- The format that a user asks for, in any case; `text` is another word for `plain`. -/
def parse? (t : Text) : Option OutputFormat :=
  let t := Text.asciiLower t
  if t = "text".toList then some plain else ofName? t

end OutputFormat

namespace LogLevel

def name : LogLevel → Text
  | error => "error"
  | warn => "warn"
  | info => "info"
  | debug => "debug"
  | trace => "trace"

def all : List LogLevel := [error, warn, info, debug, trace]

def ofName? (t : Text) : Option LogLevel := all.find? fun l => l.name = t

end LogLevel

namespace Settings

def maxSizeValue : Nat := Nat.pow 2 64 - 1

/-- The default settings of a user with the given home directory, which is no empty text. -/
def default (home : Text) : Settings :=
  { history := { filePath := home ++ (if home.getLast? = some '/' then [] else ['/']) ++
      ".mediaxml_history".toList } }

def validate (s : Settings) : Except ConfigError Unit :=
  if s.completion.maxPathMatches = 0 then
    .error (.badValue "completion.max_path_matches" "0")
  else if s.history.maxSize = 0 then
    .error (.badValue "history.max_size" "0")
  else .ok ()

end Settings
end ManifestShell
