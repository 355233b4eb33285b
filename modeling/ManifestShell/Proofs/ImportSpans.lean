import ManifestShell.Completion.Engine
import ManifestShell.Proofs.CommandLines
import ManifestShell.Proofs.Segments
import ManifestShell.Proofs.WordStarts

/-! The path typed in an import.
The first word that starts with `import` decides: behind it come blanks and at most one quote, then
the path, which ends at the next quote and does not count its trailing blanks.  The place of the
path, given in bytes, always falls between characters, so the line can be taken apart there and put
together again. -/
namespace ManifestShell

namespace Text

/-- The part of a text between two byte offsets, if both fall between characters. -/
def slice? (first last : Nat) (t : Text) : Option Text :=
  (cutAtByte? first t).bind fun q => (cutAtByte? (last - first) q.2).map Prod.fst

theorem slice?_append (before t after : Text) :
    slice? (byteSize before) (byteSize before + byteSize t) (before ++ (t ++ after)) = some t := by
  simp [slice?, cutAtByte?_byteSize]

end Text

namespace Query

variable {inWord : Bool} {line t word rest lead body before typed after : Text}

def ImportAhead (t : Text) : Prop := "import".toList <+: t

theorem importAhead_iff : ImportAhead t ↔ ∃ rest, Text.dropStart? "import" t = some rest := by
  simp only [Text.dropStart?_eq_some_iff]
  exact ⟨fun ⟨rest, h⟩ => ⟨rest, h.symm⟩, fun ⟨rest, h⟩ => ⟨rest, h.symm⟩⟩

theorem not_importAhead_nil : ¬ ImportAhead [] := by
  rintro ⟨rest, h⟩
  cases h

theorem afterImport?_here {c : Char} (h : Text.dropStart? "import" (c :: t) = some rest) :
    afterImport? false (c :: t) = some ("import".toList, rest) := by
  unfold afterImport?
  rw [h]

theorem afterImport?_cons {c : Char} (hnot : inWord = false → ¬ ImportAhead (c :: t)) :
    afterImport? inWord (c :: t) =
      (afterImport? (isWordChar c) t).map fun q => (c :: q.1, q.2) := by
  rw [afterImport?]
  intro r hstart hr
  exact hnot hstart (importAhead_iff.2 ⟨r, hr⟩)

theorem afterImport?_eq_some_iff : afterImport? inWord t = some (word, rest) ↔
    ∃ start, word = start ++ "import".toList ∧
      FirstWordStart ImportAhead inWord t start ("import".toList ++ rest) := by
  induction t generalizing inWord word with
  | nil =>
    refine iff_of_false (by simp [afterImport?]) ?_
    rintro ⟨start, _, hfirst⟩
    exact not_wordStart_nil not_importAhead_nil hfirst.toWordStart
  | cons c t ih =>
    by_cases hhere : inWord = false ∧ ImportAhead (c :: t)
    · obtain ⟨rfl, himport⟩ := hhere
      obtain ⟨r, hr⟩ := importAhead_iff.1 himport
      have heq := Text.dropStart?_eq_some_iff.1 hr
      rw [afterImport?_here hr]
      constructor
      · intro h
        obtain ⟨rfl, rfl⟩ := Prod.mk.inj (Option.some.inj h)
        exact ⟨[], rfl, (firstWordStart_here himport).2 ⟨rfl, heq.symm⟩⟩
      · rintro ⟨start, rfl, hfirst⟩
        obtain ⟨rfl, hrest⟩ := (firstWordStart_here himport).1 hfirst
        rw [List.append_cancel_left (hrest.trans heq)]
        rfl
    · rw [not_and] at hhere
      rw [afterImport?_cons hhere, Option.map_eq_some_iff]
      simp only [firstWordStart_cons_iff hhere]
      constructor
      · rintro ⟨⟨w, r⟩, hfound, hpair⟩
        obtain ⟨rfl, rfl⟩ := Prod.mk.inj hpair
        obtain ⟨start, rfl, hfirst⟩ := ih.1 hfound
        exact ⟨c :: start, rfl, start, rfl, hfirst⟩
      · rintro ⟨_, rfl, start, rfl, hfirst⟩
        exact ⟨(start ++ "import".toList, rest), ih.2 ⟨start, rfl, hfirst⟩, rfl⟩

/-- Blanks and at most one quote, as far as they go. -/
def OpensPath (lead body : Text) : Prop :=
  ∃ blanks, Text.blank blanks = true ∧
    ((lead = blanks ∧ ∀ c, body.head? = some c → isBlank c = false ∧ isQuote c = false) ∨
      ∃ quote, isQuote quote = true ∧ lead = blanks ++ [quote])

theorem isBlank_of_isQuote {c : Char} (h : isQuote c = true) : isBlank c = false := by
  simp only [isQuote, Bool.or_eq_true, beq_iff_eq] at h
  rcases h with rfl | rfl <;> decide

theorem exists_opensPath (t : Text) : ∃ lead body, t = lead ++ body ∧ OpensPath lead body := by
  obtain ⟨blanks, ht, hblanks, hhead⟩ := Text.exists_trimStart t
  cases hbody : Text.trimStart t with
  | nil =>
    rw [hbody] at ht
    exact ⟨blanks, [], ht, blanks, hblanks, Or.inl ⟨rfl, by simp⟩⟩
  | cons c body =>
    rw [hbody] at ht hhead
    by_cases hc : isQuote c = true
    · exact ⟨blanks ++ [c], body, by simpa using ht, blanks, hblanks, Or.inr ⟨c, hc, rfl⟩⟩
    · refine ⟨blanks, c :: body, ht, blanks, hblanks, Or.inl ⟨rfl, fun d hd => ⟨hhead d hd, ?_⟩⟩⟩
      obtain rfl : c = d := Option.some.inj hd
      exact Bool.not_eq_true _ ▸ hc

theorem skipImportLead_of_opensPath (h : OpensPath lead body) :
    skipImportLead (lead ++ body) = (lead, body) := by
  obtain ⟨blanks, hblanks, ⟨rfl, hbody⟩ | ⟨quote, hquote, rfl⟩⟩ := h
  · have hstop (c : Char) (hc : body.head? = some c) := (hbody c hc).1
    rw [skipImportLead, Text.takeWhile_append_of_stop (Text.blank_iff.1 hblanks) hstop,
      Text.dropWhile_append_of_stop (Text.blank_iff.1 hblanks) hstop]
    cases body with
    | nil => rfl
    | cons c body => simp [(hbody c rfl).2]
  · have hstop (c : Char) (hc : (quote :: body).head? = some c) : isBlank c = false :=
      Option.some.inj hc ▸ isBlank_of_isQuote hquote
    rw [List.append_assoc, List.singleton_append, skipImportLead,
      Text.takeWhile_append_of_stop (Text.blank_iff.1 hblanks) hstop,
      Text.dropWhile_append_of_stop (Text.blank_iff.1 hblanks) hstop]
    simp [hquote]

/-- The path has no quote and does not end in a blank; behind it come blanks and then a quote or the
end of the line. -/
def EndsPath (typed after : Text) : Prop :=
  ∃ gap rest, after = gap ++ rest ∧ (∀ c ∈ typed ++ gap, isQuote c = false) ∧
    (∀ c, rest.head? = some c → isQuote c = true) ∧ Text.blank gap = true ∧
    ∀ c, typed.getLast? = some c → isBlank c = false

theorem exists_endsPath (body : Text) :
    ∃ typed after, body = typed ++ after ∧ EndsPath typed after := by
  obtain ⟨gap, hcaptured, hgap, hlast⟩ :=
    Text.exists_trimEnd (body.takeWhile fun c => !isQuote c)
  refine ⟨_, gap ++ body.dropWhile fun c => !isQuote c, ?_, gap, _, rfl, ?_, ?_, hgap, hlast⟩
  · rw [← List.append_assoc, ← hcaptured, List.takeWhile_append_dropWhile]
  · rw [← hcaptured]
    intro c hc
    simpa using List.all_eq_true.1 List.all_takeWhile c hc
  · intro c hc
    have hnot := List.head?_dropWhile_not (fun c => !isQuote c) body
    rw [hc] at hnot
    simpa using hnot

theorem EndsPath.trimEnd_takeWhile (h : EndsPath typed after) :
    Text.trimEnd ((typed ++ after).takeWhile fun c => !isQuote c) = typed := by
  obtain ⟨gap, rest, rfl, hquote, hrest, hgap, hlast⟩ := h
  have htake : (typed ++ gap ++ rest).takeWhile (fun c => !isQuote c) = typed ++ gap :=
    Text.takeWhile_append_of_stop (fun c hc => by simp [hquote c hc])
      fun c hc => by simp [hrest c hc]
  rw [← List.append_assoc, htake, Text.trimEnd_append hgap, Text.trimEnd_of_getLast hlast]

/-- The parts of a line around the path of its import: the first word that starts with `import`,
then blanks and at most one quote, then the path. -/
def TypedImport (line before typed after : Text) : Prop :=
  ∃ start lead, before = start ++ ("import".toList ++ lead) ∧
    FirstWordStart ImportAhead false line start ("import".toList ++ (lead ++ (typed ++ after))) ∧
    OpensPath lead (typed ++ after) ∧ EndsPath typed after ∧ typed ≠ []

theorem importSpan?_of_afterImport? (hword : afterImport? false line = some (word, lead ++ body))
    (hlead : OpensPath lead body) (hbody : body = typed ++ after) (hends : EndsPath typed after) :
    importSpan? line = if typed = [] then none else some (word ++ lead, typed, after) := by
  have htyped := hends.trimEnd_takeWhile
  rw [← hbody] at htyped
  simp only [importSpan?, hword, skipImportLead_of_opensPath hlead, htyped, List.isEmpty_iff]
  rw [hbody, List.drop_left]

theorem importSpan?_eq_some_iff :
    importSpan? line = some (before, typed, after) ↔ TypedImport line before typed after := by
  constructor
  · intro h
    cases hword : afterImport? false line with
    | none => simp [importSpan?, hword] at h
    | some q =>
      obtain ⟨word, rest⟩ := q
      obtain ⟨lead, body, rfl, hlead⟩ := exists_opensPath rest
      obtain ⟨t, a, rfl, hends⟩ := exists_endsPath body
      rw [importSpan?_of_afterImport? hword hlead rfl hends] at h
      split_ifs at h with hne
      obtain ⟨rfl, hpair⟩ := Prod.mk.inj (Option.some.inj h)
      obtain ⟨rfl, rfl⟩ := Prod.mk.inj hpair
      obtain ⟨start, rfl, hfirst⟩ := afterImport?_eq_some_iff.1 hword
      exact ⟨start, lead, List.append_assoc .., hfirst, hlead, hends, hne⟩
  · rintro ⟨start, lead, rfl, hfirst, hlead, hends, hne⟩
    have hword : afterImport? false line =
        some (start ++ "import".toList, lead ++ (typed ++ after)) :=
      afterImport?_eq_some_iff.2 ⟨start, rfl, hfirst⟩
    rw [importSpan?_of_afterImport? hword hlead rfl hends, if_neg hne, List.append_assoc]

theorem TypedImport.eq (h : TypedImport line before typed after) :
    line = before ++ (typed ++ after) := by
  obtain ⟨start, lead, rfl, hfirst, _⟩ := h
  rw [hfirst.eq, List.append_assoc, List.append_assoc]

/-- The three parts of a line with an import make up the line, and the first two are not empty. -/
theorem importSpan?_eq_some (h : importSpan? line = some (before, typed, after)) :
    line = before ++ (typed ++ after) ∧ before ≠ [] ∧ typed ≠ [] := by
  have himport := importSpan?_eq_some_iff.1 h
  refine ⟨himport.eq, ?_, ?_⟩
  · obtain ⟨start, lead, rfl, _⟩ := himport
    simp
  · obtain ⟨_, _, _, _, _, _, hne⟩ := himport
    exact hne

theorem TypedImport.no_quote (h : TypedImport line before typed after) :
    ∀ c ∈ typed, isQuote c = false := by
  obtain ⟨_, _, _, _, _, ⟨gap, _, _, hquote, _⟩, _⟩ := h
  exact fun c hc => hquote c (List.mem_append_left gap hc)

/-- Where the path of an import is looked for, and that its place in bytes takes the line apart
between characters. -/
theorem import_path_characterization (line : Text) :
    (∀ before typed after, .importPath before typed after ∈ positions line ↔
      TypedImport line before typed after) ∧
    ∀ before typed after, .importPath before typed after ∈ positions line →
      let range := importRange before typed
      range.1 ≤ range.2 ∧ range.2 ≤ Text.byteSize line ∧
      Text.cutAtByte? range.1 line = some (before, typed ++ after) ∧
      Text.cutAtByte? range.2 line = some (before ++ typed, after) ∧
      Text.slice? range.1 range.2 line = some typed ∧
      (∀ c ∈ typed, isQuote c = false) ∧ before ++ typed ++ after = line ∧
      ∀ files limit, Source.pathForms files limit line =
        (Source.pathEntries files limit typed).map fun entries =>
          entries.filterMap (Source.pathForm files before after) := by
  have hiff (before typed after : Text) : .importPath before typed after ∈ positions line ↔
      TypedImport line before typed after :=
    importPath_mem_positions.trans importSpan?_eq_some_iff
  refine ⟨hiff, fun before typed after h => ?_⟩
  have himport := (hiff before typed after).1 h
  have hspan := importPath_mem_positions.1 h
  have hline : line = before ++ typed ++ after := by rw [himport.eq, List.append_assoc]
  have hend : Text.byteSize before + Text.byteSize typed = Text.byteSize (before ++ typed) :=
    (Text.byteSize_append before typed).symm
  intro range
  refine ⟨Nat.le_add_right _ _, ?_, ?_, ?_, ?_, himport.no_quote, hline.symm, fun files limit => ?_⟩
  · simp only [range, importRange, hline, Text.byteSize_append]
    omega
  · rw [himport.eq]
    exact Text.cutAtByte?_byteSize before (typed ++ after)
  · simp only [range, importRange, hend]
    rw [hline]
    exact Text.cutAtByte?_byteSize (before ++ typed) after
  · rw [himport.eq]
    exact Text.slice?_append before typed after
  · rw [Source.pathForms, hspan]

/-- Wide blanks and letters around the first of two imports. -/
theorem import_path_between_wide_characters :
    let line : Text := "é\u2003import\u00a0\"b é\u3000\" import x"
    let before : Text := "é\u2003import\u00a0\""
    let typed : Text := "b é"
    let range := importRange before typed
    .importPath before typed "\u3000\" import x" ∈ positions line ∧ range = (14, 18) ∧
      Text.slice? range.1 range.2 line = some typed ∧
      TypedImport line before typed "\u3000\" import x" := by
  intro line before typed range
  have hmem : .importPath before typed "\u3000\" import x" ∈ positions line := by decide +kernel
  obtain ⟨hiff, hrange⟩ := import_path_characterization line
  exact ⟨hmem, by decide +kernel, (hrange _ _ _ hmem).2.2.2.2.1, (hiff _ _ _).1 hmem⟩

end Query
end ManifestShell
