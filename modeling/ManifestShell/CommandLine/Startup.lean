import ManifestShell.CommandLine.Arguments
import ManifestShell.Files
import ManifestShell.Settings.Storage
import ManifestShell.Shell.Session

/-! What the program starts with.
Settings come from a file, which the command line names or the home directory holds, and the
arguments override them.  The arguments also say what is in the session at first. -/
namespace ManifestShell

structure Environment where
  disk : Disk
  home : Text

namespace Settings

def defaultPath (home : Text) : Text := Disk.join (Disk.join home ".mediaxml") "config.toml"

def readFile (env : Environment) (path : Text) : Except ConfigError Settings :=
  match env.disk.readText path with
  | .ok text => ofToml env.home text
  | .error .noEntry => .error (.missing path)
  | .error e =>
    .error (.other ("Cannot read ".toList ++ path ++ ": ".toList ++ e.message))

/-- Reads the given file, or the one in the home directory if there is one. -/
def load (env : Environment) (path : Option Text) : Except ConfigError Settings :=
  match path with
  | some path => readFile env path
  | none =>
    let path := defaultPath env.home
    if env.disk.exists? path then readFile env path else .ok (default env.home)

/-- Settings that cannot be used give way to the defaults. -/
def usable (home : Text) (s : Settings) : Settings :=
  match s.validate with
  | .ok _ => s
  | .error _ => default home

def usableWarning (s : Settings) : Text :=
  match s.validate with
  | .ok _ => []
  | .error e =>
    "Warning: Configuration validation failed: ".toList ++ (ShellError.config e).message ++
      "\nUsing default configuration instead.\n".toList

end Settings

namespace Arguments

def formatName (a : Arguments) : Option Text :=
  match a.command with
  | some (.complete _ format) => format
  | _ => none

/-- The format to use, and plain for a name that nobody knows. -/
def format (a : Arguments) (s : Settings) : OutputFormat :=
  match a.formatName with
  | some name => (OutputFormat.parse? name).getD .plain
  | none => s.display.format

/-- The more is wanted, the sooner it counts. -/
def level (a : Arguments) (s : Settings) : LogLevel :=
  if a.veryVerbose then .trace
  else if a.verbose then .debug
  else if a.quiet then .error
  else s.logging.level

def override (a : Arguments) (s : Settings) : Settings :=
  { s with
    display := ⟨s.display.colorOutput && !a.noColor, a.format s⟩
    logging := { s.logging with level := a.level s } }

def formatWarning (a : Arguments) : Text :=
  match a.formatName with
  | some name =>
    if (OutputFormat.parse? name).isSome then []
    else "Warning: Unknown format '".toList ++ name ++ "', using plain\n".toList
  | none => []

def settings (env : Environment) (a : Arguments) : Except ConfigError Settings := do
  let s ← Settings.load env a.config
  return a.override (s.usable env.home)

def warnings (env : Environment) (a : Arguments) : Text :=
  match Settings.load env a.config with
  | .ok s => s.usableWarning ++ a.formatWarning
  | .error _ => []

def settingsPath (env : Environment) (a : Arguments) : Text :=
  a.config.getD (Settings.defaultPath env.home)

/-- A variable with a value after an equals sign, or null without one. -/
def binding (t : Text) : Except CommandError (Text × Json) :=
  match Text.splitFirst? (· == '=') t with
  | some (name, value) => (Command.variableName name).map fun n => (n, Json.parseOrText value)
  | none => (Command.variableName t).map fun n => (n, .null)

def documentOf (a : Arguments) : Option Document :=
  if a.document.isNone && a.children.isEmpty then none
  else some (Document.ofTags (a.document.getD "document") a.children)

def files (env : Environment) (a : Arguments) : FileSystem :=
  match a.root with
  | some root => DiskView.fileSystem ⟨env.disk, root⟩
  | none => (DiskView.ofWorkingDirectory env.disk).fileSystem

def session (env : Environment) (a : Arguments) (display : DisplaySettings) :
    Except CommandError Session := do
  let functions := Functions.ofList (a.functions.map fun name => ⟨name, none⟩)
  let start := Session.new functions (a.files env) display
  let bs ← a.bindings.mapM binding
  let bound := bs.foldl (fun s b => s.bind b.1 b.2) start
  return { bound with document := a.documentOf }

end Arguments

end ManifestShell
