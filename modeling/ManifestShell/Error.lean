import ManifestShell.Text.Basic

/-! What can go wrong, and how it is reported.
An error has a message of its own and may rest on another error; `ShellError.chain` lists the
messages from the outermost inwards. -/
namespace ManifestShell

inductive SourceError where
  | pattern (reason : Text)
  | entry (path : Text) (reason : Text)
  | document (reason : Text)
  deriving DecidableEq, Repr

inductive ConfigError where
  | missing (path : Text)
  | malformed (reason : Text)
  | badValue (field : Text) (value : Text)
  | other (reason : Text)
  deriving DecidableEq, Repr

inductive ShellError where
  | completion (e : SourceError)
  | config (e : ConfigError)
  | io (reason : Text)
  | command (reason : Text)
  | other (reason : Text)
  deriving DecidableEq, Repr

def SourceError.message : SourceError → Text
  | pattern reason => "Invalid glob pattern: ".toList ++ reason
  | entry path reason => "Cannot inspect '".toList ++ path ++ "': ".toList ++ reason
  | document reason => "Unreadable document: ".toList ++ reason

def ConfigError.message : ConfigError → Text
  | missing path => "Config file not found: ".toList ++ path
  | malformed reason => "Invalid config format: ".toList ++ reason
  | badValue field value =>
    "Invalid value '".toList ++ value ++ "' for field '".toList ++ field ++ "'".toList
  | other reason => reason

def ShellError.message : ShellError → Text
  | completion e => "Completion error: ".toList ++ e.message
  | config e => "Configuration error: ".toList ++ e.message
  | io reason => "I/O error: ".toList ++ reason
  | command reason => "Invalid command: ".toList ++ reason
  | other reason => reason

/-- The messages of an error and of those it rests on. -/
def ShellError.chain (e : ShellError) : List Text :=
  e.message :: match e with
    | completion (.entry path reason) => [(SourceError.entry path reason).message, reason]
    | completion e => [e.message]
    | config e => [e.message]
    | io reason => [reason]
    | command _ | other _ => []

inductive OsError where
  | noEntry
  | notDirectory
  | isDirectory
  | alreadyThere
  | nameTooLong
  | embeddedNul
  | notUtf8
  deriving DecidableEq, Repr

def OsError.message : OsError → Text
  | noEntry => "No such file or directory (os error 2)"
  | notDirectory => "Not a directory (os error 20)"
  | isDirectory => "Is a directory (os error 21)"
  | alreadyThere => "File exists (os error 17)"
  | nameTooLong => "File name too long (os error 36)"
  | embeddedNul => "file name contained an unexpected NUL byte"
  | notUtf8 => "stream did not contain valid UTF-8"

end ManifestShell
