import ManifestShell.Proofs.SettingFields
import ManifestShell.Proofs.TomlDocuments
import ManifestShell.Settings.Storage

/-! Settings as they are written, read back.
Written settings are a document with a section for each part and an entry for each field of it.
Nothing is left to defaults, so what is read does not depend on the home directory. -/
namespace ManifestShell.Settings

namespace Part

def all : List Part := [completion, display, history, logging]

theorem mem_all (p : Part) : p ∈ all := by cases p <;> decide

def fields : Part → List Field
  | completion => [.fallbackToAll, .pathCompletion, .documentCompletion, .maxPathMatches]
  | display => [.colorOutput, .format]
  | history => [.maxSize, .filePath, .persist]
  | logging => [.level, .timestamps]

theorem map_name_fields (p : Part) : p.fields.map Field.name = p.fieldNames := by cases p <;> rfl

theorem nodup_fieldNames (p : Part) : p.fieldNames.Nodup := by cases p <;> decide

end Part

namespace Field

theorem mem_fields (f : Field) : f ∈ f.part.fields := by cases f <;> decide

def toml (s : Settings) : Field → Toml
  | fallbackToAll => .bool s.completion.fallbackToAll
  | pathCompletion => .bool s.completion.pathCompletion
  | documentCompletion => .bool s.completion.documentCompletion
  | maxPathMatches => .int s.completion.maxPathMatches
  | colorOutput => .bool s.display.colorOutput
  | format => .str s.display.format.name
  | maxSize => .int s.history.maxSize
  | filePath => .str s.history.filePath
  | persist => .bool s.history.persist
  | level => .str s.logging.level.name
  | timestamps => .bool s.logging.timestamps

def text (s : Settings) : Field → Text
  | fallbackToAll => flagText s.completion.fallbackToAll
  | pathCompletion => flagText s.completion.pathCompletion
  | documentCompletion => flagText s.completion.documentCompletion
  | maxPathMatches => Text.ofNat s.completion.maxPathMatches
  | colorOutput => flagText s.display.colorOutput
  | format => Toml.writeText s.display.format.name
  | maxSize => Text.ofNat s.history.maxSize
  | filePath => Toml.writeText s.history.filePath
  | persist => flagText s.history.persist
  | level => Toml.writeText s.logging.level.name
  | timestamps => flagText s.logging.timestamps

theorem spells_text (s : Settings) (f : Field) : Toml.Spells (f.text s) (f.toml s) := by
  cases f with
  | maxPathMatches | maxSize => exact Toml.spells_ofNat _
  | format | filePath | level => exact Toml.spells_writeText _
  | _ => exact Toml.spells_flag _

def entry (s : Settings) (f : Field) : Toml.Entry where
  key := f.name
  text := f.text s
  value := f.toml s
  bare := by cases f <;> decide
  spells := spells_text s f

theorem read_toml {s : Settings} (hmatches : s.completion.maxPathMatches ≤ maxSizeValue)
    (hsize : s.history.maxSize ≤ maxSizeValue) (f : Field) :
    f.read (f.toml s) = some (f.get s) := by
  have hnat {n : Nat} (h : n ≤ maxSizeValue) : sizeOfInt? n = some n := by
    rw [sizeOfInt?, if_pos ⟨Int.natCast_nonneg n, Int.ofNat_le.2 h⟩, Int.toNat_natCast]
  cases f with
  | maxPathMatches => exact hnat hmatches
  | maxSize => exact hnat hsize
  | format =>
    change OutputFormat.ofName? s.display.format.name = some s.display.format
    cases s.display.format <;> rfl
  | level =>
    change LogLevel.ofName? s.logging.level.name = some s.logging.level
    cases s.logging.level <;> rfl
  | _ => rfl

end Field

theorem fields?_insertAll {names : List Text} {kvs : Toml.Members}
    (h : kvs.map Prod.fst = names) :
    Toml.fields? names (.table .header (Entries.insertAll kvs [])) =
      some fun k => Entries.find? k (Entries.insertAll kvs []) := by
  refine if_pos (List.all_eq_true.2 fun e he => ?_)
  have hname : e.1 ∈ names := by
    rcases Entries.mem_insertAll he with he | he
    · exact h ▸ List.mem_map_of_mem he
    · cases he
  rw [List.contains_iff_mem.2 hname, Bool.true_or]

namespace Part

variable (s : Settings) (p : Part)

theorem map_key_entries : (p.fields.map (Field.entry s)).map Toml.Entry.key = p.fieldNames := by
  rw [List.map_map, ← map_name_fields]
  rfl

def written : Toml.Section where
  name := p.name
  entries := p.fields.map (Field.entry s)
  bare := by cases p <;> decide
  nodup := map_key_entries s p ▸ p.nodup_fieldNames

def members : Toml.Members :=
  Entries.insertAll ((p.fields.map (Field.entry s)).map Toml.Entry.member) []

theorem map_fst_members :
    ((p.fields.map (Field.entry s)).map Toml.Entry.member).map Prod.fst = p.fieldNames := by
  rw [List.map_map]
  exact map_key_entries s p

theorem find?_members {f : Field} (h : f ∈ p.fields) :
    Entries.find? f.name (p.members s) = some (f.toml s) := by
  have hnodup : (((p.fields.map (Field.entry s)).map Toml.Entry.member).map Prod.fst).Nodup := by
    rw [map_fst_members]
    exact p.nodup_fieldNames
  have hentry : f.entry s ∈ p.fields.map (Field.entry s) := List.mem_map_of_mem h
  exact Entries.find?_insertAll_of_mem hnodup (List.mem_map_of_mem hentry)

end Part

/-! ### The whole document -/

def document (s : Settings) : Toml.Members :=
  Entries.insertAll ((Part.all.map (Part.written s)).map Toml.Section.member) []

section Written

variable (s : Settings)

theorem nodup_sections : ((Part.all.map (Part.written s)).map Toml.Section.name).Nodup := by
  have hnames : (Part.all.map Part.name).Nodup := by decide
  exact hnames

theorem parse?_toToml : Toml.parse? s.toToml = some s.document :=
  Toml.parse?_document (nodup_sections s)

theorem find?_document (p : Part) :
    Entries.find? p.name s.document = some (.table .header (p.members s)) := by
  have hwritten : p.written s ∈ Part.all.map (Part.written s) := List.mem_map_of_mem p.mem_all
  exact Entries.find?_insertAll_of_mem (nodup_sections s) (List.mem_map_of_mem hwritten)

theorem entries?_document (p : Part) :
    p.entries? s.document = some fun k => Entries.find? k (p.members s) := by
  rw [Part.entries?, find?_document]
  exact fields?_insertAll (Part.map_fst_members s p)

theorem legible_document : Legible s.document where
  top := Option.isSome_of_eq_some (fields?_insertAll rfl)
  parts p := Option.isSome_of_eq_some (entries?_document s p)

theorem written?_document (f : Field) : f.written? s.document = some (f.toml s) := by
  rw [Field.written?, entries?_document, Option.bind_some]
  exact Part.find?_members s f.part f.mem_fields

end Written

/-- Settings are read back as they were written, if their sizes are among those that a setting can
hold.  The path of the history file may be any text. -/
theorem settings_round_trip (home : Text) (s : Settings)
    (hmatches : s.completion.maxPathMatches ≤ maxSizeValue)
    (hsize : s.history.maxSize ≤ maxSizeValue) : ofToml home s.toToml = .ok s := by
  have hvalue (f : Field) : f.value? (default home) s.document = some (f.get s) := by
    rw [Field.value?, written?_document]
    exact f.read_toml hmatches hsize
  exact ofToml_eq_ok_iff.2 ⟨s.document, parse?_toToml s,
    ofMembers?_eq_some_iff.2 ⟨legible_document s, hvalue⟩⟩

/-- A path with both kinds of quotes three in a row, a backslash, line ends and a control character,
beside the largest size and an invalid one. -/
theorem settings_round_trip_of_quotes :
    let path : Text := "\n\"\"\"\"'''\\u0041\r\n\t\x01 #é\""
    let s : Settings :=
      { completion := { fallbackToAll := false, maxPathMatches := 18446744073709551615 }
        display := ⟨false, .json⟩
        history := ⟨0, path, false⟩
        logging := ⟨.trace, false⟩ }
    s.completion.maxPathMatches ≤ maxSizeValue ∧ s.history.maxSize ≤ maxSizeValue ∧
      ofToml "/" s.toToml = .ok s := by
  intro path s
  have hmatches : s.completion.maxPathMatches ≤ maxSizeValue := by decide
  have hsize : s.history.maxSize ≤ maxSizeValue := by decide
  exact ⟨hmatches, hsize, settings_round_trip "/" s hmatches hsize⟩

end ManifestShell.Settings
