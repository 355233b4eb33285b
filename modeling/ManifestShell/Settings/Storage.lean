import ManifestShell.Json.Printer
import ManifestShell.Settings.Basic
import ManifestShell.Toml.Parser

/-! Settings as they are read from a data format and written to it.
A section is written as a record, or as a list of its fields in their order.  Whatever is left out
has its default. -/
namespace ManifestShell

/-- How a data format presents the kinds of values that settings are made of. -/
structure ValueReader (V : Type) where
  flag? : V → Option Bool
  size? : V → Option Nat
  text? : V → Option Text
  /-- The name of one of several choices. -/
  choice? : V → Option Text
  /-- The values of a section by the names of its fields, which are given in their order. -/
  fields? : List Text → V → Option (Text → Option V)

def byPosition {V : Type} (names : List Text) (items : List V) (name : Text) : Option V :=
  (names.zip items).lookup name

def sizeOfInt? (i : Int) : Option Nat :=
  if 0 ≤ i ∧ i ≤ Settings.maxSizeValue then some i.toNat else none

namespace ValueReader

variable {V : Type}

def field {α : Type} (get : Text → Option V) (name : Text) (read : V → Option α) (default : α) :
    Option α :=
  match get name with
  | none => some default
  | some v => read v

def completionFields : List Text :=
  ["fallback_to_all", "path_completion", "document_completion", "max_path_matches"]

def displayFields : List Text := ["color_output", "format"]

def historyFields : List Text := ["max_size", "file_path", "persist"]

def loggingFields : List Text := ["level", "timestamps"]

def sections : List Text := ["completion", "display", "history", "logging"]

def format? (r : ValueReader V) (v : V) : Option OutputFormat :=
  (r.choice? v).bind OutputFormat.ofName?

def level? (r : ValueReader V) (v : V) : Option LogLevel := (r.choice? v).bind LogLevel.ofName?

def completion? (r : ValueReader V) (d : CompletionSettings) (v : V) :
    Option CompletionSettings := do
  let get ← r.fields? completionFields v
  return {
    fallbackToAll := ← field get "fallback_to_all" r.flag? d.fallbackToAll
    pathCompletion := ← field get "path_completion" r.flag? d.pathCompletion
    documentCompletion := ← field get "document_completion" r.flag? d.documentCompletion
    maxPathMatches := ← field get "max_path_matches" r.size? d.maxPathMatches }

def display? (r : ValueReader V) (d : DisplaySettings) (v : V) : Option DisplaySettings := do
  let get ← r.fields? displayFields v
  return {
    colorOutput := ← field get "color_output" r.flag? d.colorOutput
    format := ← field get "format" r.format? d.format }

def history? (r : ValueReader V) (d : HistorySettings) (v : V) : Option HistorySettings := do
  let get ← r.fields? historyFields v
  return {
    maxSize := ← field get "max_size" r.size? d.maxSize
    filePath := ← field get "file_path" r.text? d.filePath
    persist := ← field get "persist" r.flag? d.persist }

def logging? (r : ValueReader V) (d : LoggingSettings) (v : V) : Option LoggingSettings := do
  let get ← r.fields? loggingFields v
  return {
    level := ← field get "level" r.level? d.level
    timestamps := ← field get "timestamps" r.flag? d.timestamps }

def settings? (r : ValueReader V) (d : Settings) (v : V) : Option Settings := do
  let get ← r.fields? sections v
  return {
    completion := ← field get "completion" (r.completion? d.completion) d.completion
    display := ← field get "display" (r.display? d.display) d.display
    history := ← field get "history" (r.history? d.history) d.history
    logging := ← field get "logging" (r.logging? d.logging) d.logging }

end ValueReader

namespace Toml

mutual

/-- Whether all numbers in a value fit: floats are in range, and integers have at most 128 bits. -/
def readable : Toml → Bool
  | float inRange => inRange
  | int i => -(2 ^ 127) ≤ i && i < 2 ^ 128
  | arr items => readableItems items
  | tables items => readableTables items
  | table _ ms => readableMembers ms
  | _ => true

def readableItems : List Toml → Bool
  | [] => true
  | v :: vs => readable v && readableItems vs

def readableMembers : List (Text × Toml) → Bool
  | [] => true
  | (_, v) :: ms => readable v && readableMembers ms

def readableTables : List (List (Text × Toml)) → Bool
  | [] => true
  | ms :: rest => readableMembers ms && readableTables rest

end

def isEmptyContainer : Toml → Bool
  | arr items => items.isEmpty
  | table _ ms => ms.isEmpty
  | _ => false

/-- A choice is named by a text, or by the only key of a table, with nothing in it. -/
def choice? : Toml → Option Text
  | str t => some t
  | table _ [(k, v)] => if v.isEmptyContainer then some k else none
  | _ => none

/-- Keys that name no field are passed over, if their values can be read; so are items beyond the
last field.  A date stands for a section without fields. -/
def fields? (names : List Text) : Toml → Option (Text → Option Toml)
  | table _ ms =>
    if ms.all fun m => names.contains m.1 || m.2.readable then some fun k => Entries.find? k ms
    else none
  | arr items => some (byPosition names items)
  | tables items => some (byPosition names (items.map (table .header)))
  | datetime => some fun _ => none
  | _ => none

def reader : ValueReader Toml where
  flag?
    | bool b => some b
    | _ => none
  size?
    | int i => sizeOfInt? i
    | _ => none
  text?
    | str t => some t
    | _ => none
  choice? := choice?
  fields? := fields?

end Toml

namespace Json

/-- A choice is named by a text, or by the only member of an object, which is null. -/
def choice? : Json → Option Text
  | str t => some t
  | obj [(k, null)] => some k
  | _ => none

def fields? (names : List Text) : Json → Option (Text → Option Json)
  | obj ms => some fun k => Entries.find? k ms
  | arr items => if items.length ≤ names.length then some (byPosition names items) else none
  | _ => none

def reader : ValueReader Json where
  flag?
    | bool b => some b
    | _ => none
  size?
    | int i => sizeOfInt? i
    | _ => none
  text?
    | str t => some t
    | _ => none
  choice? := choice?
  fields? := fields?

end Json

namespace Settings

def ofMembers? (home : Text) (ms : Toml.Members) : Option Settings :=
  Toml.reader.settings? (default home) (.table .header ms)

/-- The settings in a text; there are none if it is malformed. -/
def ofToml (home text : Text) : Except ConfigError Settings :=
  match (Toml.parse? text).bind (ofMembers? home) with
  | some s => .ok s
  | none => .error (.malformed "not a settings file")

def ofJson? (home : Text) (v : Json) : Option Settings := Json.reader.settings? (default home) v

end Settings

/-! ### Writing -/

namespace Settings

def assign (name value : Text) : Text := name ++ " = ".toList ++ value

def flagText (b : Bool) : Text := if b then "true" else "false"

def completionLines (s : CompletionSettings) : List Text :=
  ["[completion]".toList,
    assign "fallback_to_all" (flagText s.fallbackToAll),
    assign "path_completion" (flagText s.pathCompletion),
    assign "document_completion" (flagText s.documentCompletion),
    assign "max_path_matches" (Text.ofNat s.maxPathMatches)]

def displayLines (s : DisplaySettings) : List Text :=
  ["[display]".toList,
    assign "color_output" (flagText s.colorOutput),
    assign "format" (Toml.writeText s.format.name)]

def historyLines (s : HistorySettings) : List Text :=
  ["[history]".toList,
    assign "max_size" (Text.ofNat s.maxSize),
    assign "file_path" (Toml.writeText s.filePath),
    assign "persist" (flagText s.persist)]

def loggingLines (s : LoggingSettings) : List Text :=
  ["[logging]".toList,
    assign "level" (Toml.writeText s.level.name),
    assign "timestamps" (flagText s.timestamps)]

/-- The settings as a text: four sections, with an empty line between any two. -/
def toToml (s : Settings) : Text :=
  let lines := completionLines s.completion ++ [[]] ++ displayLines s.display ++ [[]] ++
    historyLines s.history ++ [[]] ++ loggingLines s.logging
  lines.flatMap (· ++ ['\n'])

def toJson (s : Settings) : Json :=
  .ofMembers [
    ("completion", .ofMembers [
      ("fallback_to_all", .bool s.completion.fallbackToAll),
      ("path_completion", .bool s.completion.pathCompletion),
      ("document_completion", .bool s.completion.documentCompletion),
      ("max_path_matches", .int s.completion.maxPathMatches)]),
    ("display", .ofMembers [
      ("color_output", .bool s.display.colorOutput),
      ("format", .str s.display.format.name)]),
    ("history", .ofMembers [
      ("max_size", .int s.history.maxSize),
      ("file_path", .str s.history.filePath),
      ("persist", .bool s.history.persist)]),
    ("logging", .ofMembers [
      ("level", .str s.logging.level.name),
      ("timestamps", .bool s.logging.timestamps)])]

end Settings

end ManifestShell
