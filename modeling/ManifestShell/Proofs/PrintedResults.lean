import Mathlib.Data.List.Forall2
import ManifestShell.Display
import ManifestShell.Proofs.JsonNesting

/-! What is printed for a line.
The indented form of JSON differs from the compact one in the blanks around items and members, and a
reader passes over all of them.  So what is printed as JSON is the object that was to be printed: no
text of a line, of a candidate or of an error gets lost or changed on the way.  Plain output has a
line for each candidate and a section for each source. -/
namespace ManifestShell

namespace Json

variable {d : Nat} {t : Text} {v : Json}

/-! ### The indented form -/

theorem isSpace_of_mem_newline {level : Nat} : ∀ c ∈ newline level, isSpace c = true := by
  intro c hc
  rcases List.mem_cons.1 hc with rfl | hc
  · decide
  · rw [List.eq_of_mem_replicate hc]
    decide

def prettyItem (level : Nat) (v : Json) : Text := newline level ++ prettyAt level v

def prettyMember (level : Nat) (m : Text × Json) : Text :=
  newline level ++ (quote m.1 ++ ':' :: ([' '] ++ prettyAt level m.2))

theorem prettyItems_eq (level : Nat) (vs : List Json) :
    prettyItems level vs = [','].intercalate (vs.map (prettyItem level)) := by
  induction vs with
  | nil => rfl
  | cons v vs ih =>
    cases vs with
    | nil => simp [prettyItems, prettyItem]
    | cons u us => simp [prettyItems, prettyItem, ih, List.intercalate_cons_cons]

theorem prettyMembers_eq (level : Nat) (ms : List (Text × Json)) :
    prettyMembers level ms = [','].intercalate (ms.map (prettyMember level)) := by
  induction ms with
  | nil => rfl
  | cons m ms ih =>
    cases ms with
    | nil => simp [prettyMembers, prettyMember]
    | cons u us => simp [prettyMembers, prettyMember, ih, List.intercalate_cons_cons]

/-- What stands before the closing character: a new line, unless there is nothing in between. -/
def lastLine (level count : Nat) : Text := if count = 0 then [] else newline level

theorem isSpace_of_mem_lastLine {level count : Nat} :
    ∀ c ∈ lastLine level count, isSpace c = true := by
  unfold lastLine
  split_ifs
  · simp
  · exact isSpace_of_mem_newline

theorem prettyAt_arr (level : Nat) (items : List Json) :
    prettyAt level (arr items) = '[' :: [','].intercalate (items.map (prettyItem (level + 1))) ++
      (lastLine level items.length ++ [']']) := by
  rw [← prettyItems_eq]
  cases items with
  | nil => rfl
  | cons v vs => simp [prettyAt, lastLine]

theorem prettyAt_obj (level : Nat) (members : List (Text × Json)) :
    prettyAt level (obj members) =
      '\x7b' :: [','].intercalate (members.map (prettyMember (level + 1))) ++
        (lastLine level members.length ++ ['\x7d']) := by
  rw [← prettyMembers_eq]
  cases members with
  | nil => rfl
  | cons m ms => simp [prettyAt, lastLine]

theorem takes_gap {gap : Text} (hgap : ∀ c ∈ gap, isSpace c = true) (h : Takes (value d) t v) :
    Takes (value d) (gap ++ t) v := by
  intro rest hrest
  rw [List.append_assoc, ← value_skipSpace, skipSpace_append hgap, value_skipSpace]
  exact h rest hrest

theorem takes_prettyAt (h : Whole d v) (level : Nat) : Takes (value d) (prettyAt level v) v := by
  induction h generalizing level with
  | null => exact takes_compact .null
  | bool b =>
    cases b
    · exact takes_compact (.bool false)
    · exact takes_compact (.bool true)
  | int low high => exact takes_int low high _
  | str t => exact takes_str _ t
  | arr _ ih =>
    rw [prettyAt_arr]
    exact takes_arr isSpace_of_mem_lastLine fun v hv =>
      takes_gap isSpace_of_mem_newline (ih v hv (level + 1))
  | obj hmembers _ ih =>
    have hblank : ∀ c ∈ [' '], isSpace c = true := by simp [isSpace]
    rw [prettyAt_obj]
    exact takes_obj hmembers isSpace_of_mem_lastLine fun m hm =>
      takes_member isSpace_of_mem_newline m.1 (takes_gap hblank (ih m hm (level + 1)))

theorem parse?_pretty (h : Whole maxDepth v) : parse? (pretty v) = some v :=
  parse?_of_takes (takes_prettyAt h 0)

end Json

namespace Printer

open Json

/-- What the entry of a source tells: its name, and its candidates or the text of its error. -/
inductive Tells : Json → Report → Prop where
  | candidates (source : Text) (cs : List Text) :
      Tells (.obj [("candidates", .arr (cs.map .str)), ("source", .str source)]) ⟨source, .ok cs⟩
  | error (source : Text) (e : SourceError) :
      Tells (.obj [("error", .str e.message), ("source", .str source)]) ⟨source, .error e⟩

theorem tells_reportJson (r : Report) : Tells (reportJson r) r := by
  obtain ⟨source, result⟩ := r
  cases result with
  | ok cs => exact .candidates source cs
  | error e => exact .error source e

theorem whole_texts (d : Nat) (ts : List Text) : Whole (d + 1) (texts ts) :=
  .arr (List.forall_mem_map.2 fun t _ => .str t)

theorem whole_pair {d : Nat} {k k' : Text} {v v' : Json} (hk : k < k') (hv : Whole d v)
    (hv' : Whole d v') : Whole (d + 1) (.obj [(k, v), (k', v')]) :=
  .obj (by simpa [Entries.Ascending] using hk) (by simp [hv, hv'])

theorem whole_reportJson (d : Nat) (r : Report) : Whole (d + 2) (reportJson r) := by
  obtain ⟨source, result⟩ := r
  cases result with
  | ok cs => exact whole_pair (by decide) (whole_texts d cs) (.str source)
  | error e => exact whole_pair (by decide) (.str e.message) (.str source)

theorem parse?_candidates (color : Bool) (line : Text) (cs : List Text) :
    parse? (candidates ⟨.json, color⟩ line cs) =
      some (.obj [("candidates", .arr (cs.map .str)), ("input", .str line)]) :=
  parse?_pretty (whole_pair (by decide) (whole_texts 125 cs) (.str line))

theorem parse?_reports (color : Bool) (line : Text) (rs : List Report) :
    parse? (reports ⟨.json, color⟩ line rs) =
      some (.obj [("input", .str line), ("sources", .arr (rs.map reportJson))]) := by
  have hentries : Whole 126 (.arr (rs.map reportJson)) :=
    .arr (List.forall_mem_map.2 fun r _ => whole_reportJson 123 r)
  exact parse?_pretty (whole_pair (by decide) (.str line) hentries)

theorem forall₂_tells (rs : List Report) : List.Forall₂ Tells (rs.map reportJson) rs := by
  rw [List.forall₂_map_left_iff, List.forall₂_same]
  exact fun r _ => tells_reportJson r

/-- Whatever is printed as JSON reads back as the object that holds the line, and with it the
candidates in their order, or one entry for each source that was asked, in their order. -/
theorem printed_json_reads_back (color : Bool) (line : Text) :
    (∀ cs : List Text, parse? (candidates ⟨.json, color⟩ line cs) =
      some (.obj [("candidates", .arr (cs.map .str)), ("input", .str line)])) ∧
    ∀ rs : List Report, ∃ entries,
      parse? (reports ⟨.json, color⟩ line rs) =
        some (.obj [("input", .str line), ("sources", .arr entries)]) ∧
      List.Forall₂ Tells entries rs := by
  exact ⟨parse?_candidates color line, fun rs =>
    ⟨rs.map reportJson, parse?_reports color line rs, forall₂_tells rs⟩⟩

/-! ### Plain lines -/

/-- The text as it is or, in color, between the sequence that switches a style on and the one that
switches all styles off. -/
inductive Shows (color : Bool) (t : Text) : Text → Prop where
  | bare : Shows color t t
  | styled (on : color = true) (code : Text) (digits : code.all Char.isDigit = true) :
      Shows color t ("\x1b[".toList ++ code ++ 'm' :: t ++ "\x1b[0m".toList)

variable {color : Bool}

theorem shows_apply {code : Text} (hcode : code.all Char.isDigit = true) (t : Text) :
    Shows color t (Painter.apply ⟨color⟩ code t) := by
  unfold Painter.apply
  split_ifs with hon
  · have hpaint : paint code t = "\x1b[".toList ++ code ++ 'm' :: t ++ "\x1b[0m".toList := by
      simp [paint, styleSequence]
    exact hpaint ▸ .styled hon code hcode
  · exact .bare

theorem shows_candidate (t : Text) : Shows color t (Painter.candidate ⟨color⟩ t) := by
  unfold Painter.candidate
  split_ifs
  · exact shows_apply (by decide) t
  · exact shows_apply (by decide) t
  · exact shows_apply (by decide) t
  · exact .bare

theorem forall₂_shows (cs : List Text) :
    List.Forall₂ (Shows color) cs (cs.map (Painter.candidate ⟨color⟩)) := by
  rw [List.forall₂_map_right_iff, List.forall₂_same]
  exact fun c _ => shows_candidate c

theorem painter_plain (color : Bool) : painter ⟨.plain, color⟩ = ⟨color⟩ := by
  cases color <;> rfl

/-- The output tells the candidates for a line: as JSON together with the line, or plainly in a line
for each, or in a word that there are none. -/
inductive ListsCandidates (line : Text) (cs : List Text) : Printer → Text → Prop where
  | json {color : Bool} {out : Text} (read : parse? out =
      some (.obj [("candidates", .arr (cs.map .str)), ("input", .str line)])) :
      ListsCandidates line cs ⟨.json, color⟩ out
  | none {color : Bool} {out : Text} (empty : cs = []) (word : Shows color "(no candidates)" out) :
      ListsCandidates line cs ⟨.plain, color⟩ out
  | lines {color : Bool} {shown : List Text} (nonempty : cs ≠ [])
      (each : List.Forall₂ (Shows color) cs shown) :
      ListsCandidates line cs ⟨.plain, color⟩ (['\n'].intercalate shown)

theorem listsCandidates (p : Printer) (line : Text) (cs : List Text) :
    ListsCandidates line cs p (p.candidates line cs) := by
  obtain ⟨format, color⟩ := p
  cases format with
  | json => exact .json (parse?_candidates color line cs)
  | plain =>
    by_cases hcs : cs = []
    · have hout : candidates ⟨.plain, color⟩ line cs =
          Painter.apply ⟨color⟩ "2" "(no candidates)" := by
        simp [candidates, painter_plain, hcs, Painter.dim]
      exact hout ▸ .none hcs (shows_apply (by decide) _)
    · have hout : candidates ⟨.plain, color⟩ line cs =
          ['\n'].intercalate (cs.map (Painter.candidate ⟨color⟩)) := by
        simp [candidates, painter_plain, hcs, Text.joinLines]
      exact hout ▸ .lines hcs (forall₂_shows cs)

/-- The section of a source: its name and the number of its candidates, which follow in a line for
each, or its name and its error. -/
inductive Section (color : Bool) : Report → Text → Prop where
  | candidates {source head count : Text} {cs shown : List Text} (name : Shows color source head)
      (number : Shows color ('(' :: Nat.toDigits 10 cs.length ++ [')']) count)
      (each : List.Forall₂ (Shows color) cs shown) :
      Section color ⟨source, .ok cs⟩
        (head ++ ' ' :: count ++ shown.flatMap ("\n  ".toList ++ ·))
  | error {source head message : Text} {e : SourceError} (name : Shows color source head)
      (failed : Shows color ("failed: ".toList ++ e.message) message) :
      Section color ⟨source, .error e⟩ (head ++ ' ' :: message)

theorem section_reportText (color : Bool) (r : Report) :
    Section color r (reportText ⟨.plain, color⟩ r) := by
  obtain ⟨source, result⟩ := r
  have hname : Shows color source (Painter.apply ⟨color⟩ "1" source) :=
    shows_apply (by decide) source
  cases result with
  | ok cs =>
    have hcount : Shows color ('(' :: Nat.toDigits 10 cs.length ++ [')'])
        (Painter.apply ⟨color⟩ "2" ('(' :: Nat.toDigits 10 cs.length ++ [')'])) :=
      shows_apply (by decide) _
    have hsection := Section.candidates hname hcount (forall₂_shows cs)
    rw [List.flatMap_map] at hsection
    rwa [reportText, reportHead, painter_plain]
  | error e =>
    have hfailed : Shows color ("failed: ".toList ++ e.message)
        (Painter.apply ⟨color⟩ "31" ("failed: ".toList ++ e.message)) := shows_apply (by decide) _
    have hsection := Section.error hname hfailed
    rw [← List.append_nil (_ ++ _)] at hsection
    rwa [reportText, reportHead, painter_plain]

/-- The output tells what each source had to say about a line: as JSON together with the line, or
plainly in a section for each. -/
inductive ListsReports (line : Text) (rs : List Report) : Printer → Text → Prop where
  | json {color : Bool} {out : Text} {entries : List Json}
      (read : parse? out = some (.obj [("input", .str line), ("sources", .arr entries)]))
      (each : List.Forall₂ Tells entries rs) : ListsReports line rs ⟨.json, color⟩ out
  | sections {color : Bool} {shown : List Text} (each : List.Forall₂ (Section color) rs shown) :
      ListsReports line rs ⟨.plain, color⟩ (['\n'].intercalate shown)

theorem listsReports (p : Printer) (line : Text) (rs : List Report) :
    ListsReports line rs p (p.reports line rs) := by
  obtain ⟨format, color⟩ := p
  cases format with
  | json => exact .json (parse?_reports color line rs) (forall₂_tells rs)
  | plain =>
    refine .sections ?_
    rw [List.forall₂_map_right_iff, List.forall₂_same]
    exact fun r _ => section_reportText color r

end Printer
end ManifestShell
