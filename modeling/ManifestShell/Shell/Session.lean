import ManifestShell.Completion.Engine
import ManifestShell.Display
import ManifestShell.Shell.Command
import ManifestShell.Text.Basic

/-! Sessions: the state of a shell, and what each command does to it. -/
namespace ManifestShell

structure Session where
  bindings : Bindings
  functions : Functions
  document : Option Document
  files : FileSystem
  format : OutputFormat
  color : Bool
  running : Bool

namespace Session

def new (functions : Functions) (files : FileSystem) (display : DisplaySettings) : Session :=
  ⟨Table.empty, functions, none, files, display.format, display.colorOutput, true⟩

def context (s : Session) : Context := ⟨s.bindings, s.functions, s.document, s.files⟩

def printer (s : Session) : Printer := ⟨s.format, s.color⟩

def bind (s : Session) (name : Text) (value : Json) : Session :=
  { s with bindings := s.bindings.insert name value }

def unbind (s : Session) (name : Text) : Session :=
  { s with bindings := s.bindings.erase name }

def documentName (s : Session) : Option Text := s.document.bind Document.name

def describe (s : Session) : Text :=
  "Session \x7b bindings: ".toList ++ Text.ofNat s.bindings.size ++
    ", functions: ".toList ++ Text.ofNat s.functions.size ++
    ", document: ".toList ++ boolText s.document.isSome ++
    ", output_format: ".toList ++ (match s.format with | .plain => "Plain" | .json => "Json") ++
    ", .. \x7d".toList

end Session

def helpText : Text :=
  Text.joinLines [
    "Type a query line to list its completions; press Tab to complete in place.",
    "",
    "Commands:",
    "  .help                     Show this help",
    "  .exit                     Leave the shell (also: exit, quit)",
    "  .bind NAME [JSON]         Bind a session variable",
    "  .unbind NAME              Remove a session variable",
    "  .bindings                 List session variables",
    "  .document [ROOT TAG...]   Describe the loaded document, or clear it",
    "  .sources LINE             Show what each completion source proposes"]

/-- How a line ends: with some output or none, with an error, or with a breakdown of a source. -/
inductive LineResult where
  | output (text : Option Text)
  | error (e : ShellError)
  | breakdown

namespace Session

def execute (e : Engine) (s : Session) : Command → Session × LineResult
  | .complete line =>
    (s, .output (some (s.printer.candidates line (e.candidates line s.context))))
  | .sources line =>
    match e.collect line s.context with
    | some rs => (s, .output (some (s.printer.reports line rs)))
    | none => (s, .breakdown)
  | .bind name value => (s.bind name value, .output none)
  | .unbind name =>
    if (s.bindings.find? name).isSome then (s.unbind name, .output none)
    else (s, .error (CommandError.unbound name).toShellError)
  | .bindings => (s, .output (some (s.printer.bindings s.bindings.entries)))
  | .document root children =>
    ({ s with document := some (Document.ofTags root children) },
      .output (some ("Document root <".toList ++ root ++ "> with ".toList ++
        Text.ofNat children.length ++ " children".toList)))
  | .clearDocument => ({ s with document := none }, .output (some "Document cleared"))
  | .help => (s, .output (some helpText))
  | .exit => ({ s with running := false }, .output none)

/-- Reads a line and carries it out; a line that cannot be read changes nothing. -/
def enter (e : Engine) (s : Session) (line : Text) : Session × LineResult :=
  match Command.parse line with
  | .ok command => s.execute e command
  | .error err => (s, .error err.toShellError)

def enterAll (e : Engine) (s : Session) : List Text → Session × List LineResult
  | [] => (s, [])
  | line :: lines =>
    let (s, r) := s.enter e line
    let (s, rs) := s.enterAll e lines
    (s, r :: rs)

def enterWhileRunning (e : Engine) (s : Session) : List Text → Session × List LineResult
  | [] => (s, [])
  | line :: lines =>
    if s.running then
      let (s, r) := s.enter e line
      let (s, rs) := s.enterWhileRunning e lines
      (s, r :: rs)
    else (s, [])

end Session

/-! ### Prompts -/

namespace Prompt

/-- The prompt names the root of the loaded document. -/
def left : Option Text → Text
  | some root => "mediaxml(".toList ++ root ++ ")> ".toList
  | none => "mediaxml> "

def right : Text := []

def indicator : Text := []

def multiline : Text := "... "

def search (failing : Bool) (term : Text) : Text :=
  "(".toList ++ (if failing then "failing ".toList else []) ++ "reverse-search: ".toList ++ term ++
    ") ".toList

end Prompt

end ManifestShell
