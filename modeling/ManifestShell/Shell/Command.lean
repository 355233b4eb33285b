import ManifestShell.Error
import ManifestShell.Json.Parser
import ManifestShell.Text.Basic

/-! Shell commands.
A line that begins with a dot, or is `exit` or `quit`, is a command; every other line is a query and
is kept as it was typed. -/
namespace ManifestShell

inductive Command where
  | complete (line : Text)
  | sources (line : Text)
  | bind (name : Text) (value : Json)
  | unbind (name : Text)
  | bindings
  | document (root : Text) (children : List Text)
  | clearDocument
  | help
  | exit

inductive CommandError where
  | unknown (name : Text)
  | badName (name : Text)
  | unbound (name : Text)
  deriving DecidableEq, Repr

def CommandError.reason : CommandError → Text
  | unknown name => "Unknown shell command: ".toList ++ name ++ " (try .help)".toList
  | badName name => "Invalid variable name: '".toList ++ name ++ "'".toList
  | unbound name => '$' :: name ++ " is not bound".toList

def CommandError.toShellError (e : CommandError) : ShellError := .command e.reason

namespace Command

def names : List Text :=
  [".help", ".exit", ".bind", ".unbind", ".bindings", ".document", ".sources"]

def isExitWord (t : Text) : Bool := t = "exit".toList || t = "quit".toList

/-- Whether a line without blanks around it is a command and not a query. -/
def isCommand (t : Text) : Bool := Text.startsWith "." t || isExitWord t

def isNameStart (c : Char) : Bool := c.isAlpha || c == '_'

def isNameChar (c : Char) : Bool := c.isAlphanum || c == '_' || c == '-'

/-- A variable name is a letter or underscore, followed by letters, digits, underscores and
hyphens. -/
def isVariableName : Text → Bool
  | [] => false
  | c :: cs => isNameStart c && cs.all isNameChar

/-- A variable name, which may be written with a dollar sign before it. -/
def variableName (t : Text) : Except CommandError Text :=
  let name := (Text.dropStart? ['$'] t).getD t
  if isVariableName name then .ok name else .error (.badName t)

def firstWord (t : Text) : Text × Text :=
  match Text.splitFirst? isBlank t with
  | some (word, rest) => (word, Text.trim rest)
  | none => (t, [])

/-- A variable and its value; no value stands for null, and what is no JSON stands for itself. -/
def parseBind (t : Text) : Except CommandError Command :=
  let (name, value) := firstWord t
  (variableName name).map fun name =>
    .bind name (if value.isEmpty then .null else Json.parseOrText value)

def parseDocument (t : Text) : Command :=
  match Text.words t with
  | root :: children => .document root children
  | [] => .clearDocument

/-- The query after `.sources` and one blank, as it was typed. -/
def sourcesLine (line : Text) : Text :=
  match Text.dropStart? ".sources" (Text.trimStart line) with
  | some rest => (Text.dropStart? [' '] rest).getD rest
  | none => []

def parse (line : Text) : Except CommandError Command :=
  let trimmed := Text.trim line
  if !isCommand trimmed then .ok (.complete line)
  else if isExitWord trimmed || trimmed = ".exit".toList || trimmed = ".quit".toList then .ok .exit
  else
    let (name, rest) := firstWord trimmed
    if name = ".help".toList then .ok .help
    else if name = ".bindings".toList then .ok .bindings
    else if name = ".bind".toList then parseBind rest
    else if name = ".unbind".toList then (variableName rest).map .unbind
    else if name = ".document".toList then .ok (parseDocument rest)
    else if name = ".sources".toList then .ok (.sources (sourcesLine line))
    else .error (.unknown name)

end Command
end ManifestShell
