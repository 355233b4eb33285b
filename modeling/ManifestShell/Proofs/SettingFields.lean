import ManifestShell.Proofs.Tables
import ManifestShell.Settings.Storage

/-! The fields of the settings, one by one.
Settings are determined by the values of their fields.  A document describes settings if all of it
can be read and each field has the value that is written for it, or its default if none is. -/
namespace ManifestShell.Settings

inductive Part where
  | completion
  | display
  | history
  | logging
  deriving DecidableEq, Repr

inductive Field where
  | fallbackToAll
  | pathCompletion
  | documentCompletion
  | maxPathMatches
  | colorOutput
  | format
  | maxSize
  | filePath
  | persist
  | level
  | timestamps
  deriving DecidableEq, Repr

namespace Part

def name : Part → Text
  | completion => "completion"
  | display => "display"
  | history => "history"
  | logging => "logging"

def fieldNames : Part → List Text
  | completion => ValueReader.completionFields
  | display => ValueReader.displayFields
  | history => ValueReader.historyFields
  | logging => ValueReader.loggingFields

/-- What a document says in a section about the names in it.  Without the section it says nothing,
and there is no result if the section cannot be read. -/
def entries? (p : Part) (doc : Toml.Members) : Option (Text → Option Toml) :=
  match Entries.find? p.name doc with
  | none => some fun _ => none
  | some v => Toml.fields? p.fieldNames v

end Part

namespace Field

def part : Field → Part
  | fallbackToAll | pathCompletion | documentCompletion | maxPathMatches => .completion
  | colorOutput | format => .display
  | maxSize | filePath | persist => .history
  | level | timestamps => .logging

def name : Field → Text
  | fallbackToAll => "fallback_to_all"
  | pathCompletion => "path_completion"
  | documentCompletion => "document_completion"
  | maxPathMatches => "max_path_matches"
  | colorOutput => "color_output"
  | format => "format"
  | maxSize => "max_size"
  | filePath => "file_path"
  | persist => "persist"
  | level => "level"
  | timestamps => "timestamps"

def Value : Field → Type
  | maxPathMatches | maxSize => Nat
  | format => OutputFormat
  | filePath => Text
  | level => LogLevel
  | fallbackToAll | pathCompletion | documentCompletion | colorOutput | persist | timestamps => Bool

def get (s : Settings) : (f : Field) → f.Value
  | fallbackToAll => s.completion.fallbackToAll
  | pathCompletion => s.completion.pathCompletion
  | documentCompletion => s.completion.documentCompletion
  | maxPathMatches => s.completion.maxPathMatches
  | colorOutput => s.display.colorOutput
  | format => s.display.format
  | maxSize => s.history.maxSize
  | filePath => s.history.filePath
  | persist => s.history.persist
  | level => s.logging.level
  | timestamps => s.logging.timestamps

/-- The value of a field, if the value in a document is one for it. -/
def read : (f : Field) → Toml → Option f.Value
  | maxPathMatches | maxSize => Toml.reader.size?
  | format => Toml.reader.format?
  | filePath => Toml.reader.text?
  | level => Toml.reader.level?
  | fallbackToAll | pathCompletion | documentCompletion | colorOutput | persist | timestamps =>
    Toml.reader.flag?

/-- What a document has written for a field. -/
def written? (f : Field) (doc : Toml.Members) : Option Toml :=
  (f.part.entries? doc).bind fun get => get f.name

/-- The value that a field has by a document, with a default if nothing is written for it. -/
def value? (f : Field) (d : Settings) (doc : Toml.Members) : Option f.Value :=
  match f.written? doc with
  | none => some (f.get d)
  | some v => f.read v

end Field

variable {s t d : Settings} {doc : Toml.Members} {get : Text → Option Toml}

theorem Field.value?_eq {f : Field} (h : f.part.entries? doc = some get) :
    f.value? d doc = ValueReader.field get f.name f.read (f.get d) := by
  have hwritten : f.written? doc = get f.name := by rw [written?, h, Option.bind_some]
  rw [value?, hwritten, ValueReader.field]
  cases get f.name with
  | none => rfl
  | some v => rfl

/-- A section that is left out reads like one with nothing in it. -/
theorem field_eq_of_entries? {α : Type} {read : Toml → Option α} {default : α}
    {build : (Text → Option Toml) → Option α} {p : Part} (h : p.entries? doc = some get)
    (hread : ∀ v, read v = (Toml.fields? p.fieldNames v).bind build)
    (hdefault : build (fun _ => none) = some default) :
    ValueReader.field (fun k => Entries.find? k doc) p.name read default = build get := by
  rw [Part.entries?] at h
  rw [ValueReader.field]
  cases hfind : Entries.find? p.name doc with
  | none =>
    rw [hfind] at h
    obtain rfl := Option.some.inj h
    exact hdefault.symm
  | some v =>
    rw [hfind] at h
    have hfields : Toml.fields? p.fieldNames v = some get := h
    rw [← Option.bind_some get build, ← hfields]
    exact hread v

/-- The settings with the given values of their fields, if all of these are there. -/
def assemble (value : (f : Field) → Option f.Value) : Option Settings := do
  return {
    completion := {
      fallbackToAll := ← value .fallbackToAll
      pathCompletion := ← value .pathCompletion
      documentCompletion := ← value .documentCompletion
      maxPathMatches := ← value .maxPathMatches }
    display := { colorOutput := ← value .colorOutput, format := ← value .format }
    history := {
      maxSize := ← value .maxSize
      filePath := ← value .filePath
      persist := ← value .persist }
    logging := { level := ← value .level, timestamps := ← value .timestamps } }

theorem assemble_eq_some_iff {value : (f : Field) → Option f.Value} :
    assemble value = some s ↔ ∀ f, value f = some (f.get s) := by
  constructor
  · intro h
    simp only [assemble, Option.bind_eq_bind, Option.bind_eq_some_iff, Option.pure_def,
      Option.some.injEq] at h
    obtain ⟨_, hfallback, _, hpath, _, hdocument, _, hmatches, _, hcolor, _, hformat, _, hsize, _,
      hfile, _, hpersist, _, hlevel, _, htimestamps, rfl⟩ := h
    intro f
    cases f <;> assumption
  · intro h
    simp only [assemble, h, Option.bind_eq_bind, Option.bind_some, Option.pure_def]
    rfl

theorem fields?_table {names : List Text} {origin : TableOrigin}
    (h : (Toml.fields? names (.table origin doc)).isSome) :
    Toml.fields? names (.table origin doc) = some fun k => Entries.find? k doc := by
  rw [Toml.fields?] at h ⊢
  split_ifs at h ⊢
  · rfl
  · cases h

/-- All that is in a document can be read: its sections, and what it has besides. -/
structure Legible (doc : Toml.Members) : Prop where
  top : (Toml.fields? ValueReader.sections (.table .header doc)).isSome
  parts : ∀ p : Part, (p.entries? doc).isSome

theorem settings?_eq (h : Legible doc) (d : Settings) :
    Toml.reader.settings? d (.table .header doc) = assemble fun f => f.value? d doc := by
  obtain ⟨gets, hgets⟩ : ∃ gets : Part → Text → Option Toml, ∀ p, p.entries? doc = some (gets p) :=
    ⟨fun p => (p.entries? doc).get (h.parts p), fun p => (Option.some_get (h.parts p)).symm⟩
  have hvalue (f : Field) :
      f.value? d doc = ValueReader.field (gets f.part) f.name f.read (f.get d) :=
    Field.value?_eq (hgets f.part)
  have hcompletion : ValueReader.field (fun k => Entries.find? k doc) "completion"
      (Toml.reader.completion? d.completion) d.completion = _ :=
    field_eq_of_entries? (hgets .completion) (fun v => rfl) rfl
  have hdisplay : ValueReader.field (fun k => Entries.find? k doc) "display"
      (Toml.reader.display? d.display) d.display = _ :=
    field_eq_of_entries? (hgets .display) (fun v => rfl) rfl
  have hhistory : ValueReader.field (fun k => Entries.find? k doc) "history"
      (Toml.reader.history? d.history) d.history = _ :=
    field_eq_of_entries? (hgets .history) (fun v => rfl) rfl
  have hlogging : ValueReader.field (fun k => Entries.find? k doc) "logging"
      (Toml.reader.logging? d.logging) d.logging = _ :=
    field_eq_of_entries? (hgets .logging) (fun v => rfl) rfl
  have htop : Toml.reader.fields? ValueReader.sections (.table .header doc) =
      some fun k => Entries.find? k doc := fields?_table h.top
  rw [ValueReader.settings?, htop]
  simp only [Option.bind_eq_bind, Option.bind_some, hcompletion, hdisplay, hhistory, hlogging,
    Option.bind_assoc, Option.pure_def, hvalue, assemble]
  rfl

theorem entries?_isSome {α : Type} {read : Toml → Option α} {default x : α}
    {build : (Text → Option Toml) → Option α} {p : Part}
    (hread : ∀ v, read v = (Toml.fields? p.fieldNames v).bind build)
    (h : ValueReader.field (fun k => Entries.find? k doc) p.name read default = some x) :
    (p.entries? doc).isSome := by
  rw [ValueReader.field] at h
  rw [Part.entries?]
  cases hfind : Entries.find? p.name doc with
  | none => rfl
  | some v =>
    rw [hfind] at h
    have hsome : (Toml.fields? p.fieldNames v).bind build = some x := (hread v).symm.trans h
    obtain ⟨get, hget, _⟩ := Option.bind_eq_some_iff.1 hsome
    exact Option.isSome_of_eq_some hget

theorem legible_of_settings? (h : Toml.reader.settings? d (.table .header doc) = some s) :
    Legible doc := by
  obtain ⟨get, htop, h⟩ := Option.bind_eq_some_iff.1 h
  have hsome : (Toml.fields? ValueReader.sections (.table .header doc)).isSome :=
    Option.isSome_of_eq_some htop
  obtain rfl := Option.some.inj ((fields?_table hsome).symm.trans htop)
  obtain ⟨_, hcompletion, h⟩ := Option.bind_eq_some_iff.1 h
  obtain ⟨_, hdisplay, h⟩ := Option.bind_eq_some_iff.1 h
  obtain ⟨_, hhistory, h⟩ := Option.bind_eq_some_iff.1 h
  obtain ⟨_, hlogging, _⟩ := Option.bind_eq_some_iff.1 h
  refine ⟨hsome, fun p => ?_⟩
  cases p with
  | completion => exact entries?_isSome (fun v => rfl) hcompletion
  | display => exact entries?_isSome (fun v => rfl) hdisplay
  | history => exact entries?_isSome (fun v => rfl) hhistory
  | logging => exact entries?_isSome (fun v => rfl) hlogging

/-- Which documents describe settings, and what they say on each field. -/
theorem ofMembers?_eq_some_iff {home : Text} : ofMembers? home doc = some s ↔
    Legible doc ∧ ∀ f : Field, f.value? (default home) doc = some (f.get s) := by
  constructor
  · intro h
    have hlegible : Legible doc := legible_of_settings? h
    rw [ofMembers?, settings?_eq hlegible] at h
    exact ⟨hlegible, assemble_eq_some_iff.1 h⟩
  · rintro ⟨hlegible, h⟩
    rw [ofMembers?, settings?_eq hlegible]
    exact assemble_eq_some_iff.2 h

theorem ofToml_eq_ok_iff {home text : Text} : ofToml home text = .ok s ↔
    ∃ doc, Toml.parse? text = some doc ∧ ofMembers? home doc = some s := by
  rw [ofToml, ← Option.bind_eq_some_iff]
  cases (Toml.parse? text).bind (ofMembers? home) with
  | none => simp
  | some u => simp

end ManifestShell.Settings
