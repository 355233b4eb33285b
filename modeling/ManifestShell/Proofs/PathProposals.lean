import ManifestShell.Proofs.ImportSpans
import ManifestShell.Proofs.Tables
import ManifestShell.Proofs.TypedPaths

/-! What is proposed for the path of an import.
Over a listing, a path without wildcards is completed to the listed paths that go on from it within
its last component, in order and as many as the limit says.  The completed line can be completed
further: its import has the new path, at the place where the old one stood. -/
namespace ManifestShell

namespace Source

open Listing

variable {l : Listing} {line before typed after : Text}

theorem path_offer_eq (hl : TreeShaped l) (htyped : Glob.Literal typed)
    (hline : Query.importSpan? line = some (before, typed, after)) (limit : Nat) (c : Context) :
    (path limit).offer line { c with files := l.fileSystem } =
      .answer (((l.continuing typed).take limit).map fun e =>
        before ++ (opened e.1 e.2 ++ after)) := by
  simp only [path, pathForms_of_treeShaped hl htyped hline]

/-- For an import whose path has no wildcards, over a listing declared by paths without empty
components, the source for paths answers with the line completed to each of the first listed paths
that go on from the typed one, in the order of their encodings and without leaving one out. -/
theorem proposals_continue_typed (ds : List Declaration) (hds : ∀ decl ∈ ds, Gapless decl.path)
    (limit : Nat) (line before typed after : Text) (c : Context)
    (hline : .importPath before typed after ∈ Query.positions line)
    (htyped : Glob.Literal typed) :
    let l := ofDeclarations ds
    let es := l.continuing typed
    (es.Pairwise fun e f => Text.bytes e.1 < Text.bytes f.1) ∧
      (∀ k, k ∈ es.map Prod.fst ↔ (∃ decl ∈ ds, AtOrAbove k decl.path) ∧ Continues typed k) ∧
      (∀ e ∈ es, l.kind e.1 = .ok e.2) ∧ line = before ++ (typed ++ after) ∧
      (path limit).offer line { c with files := l.fileSystem } =
        .answer ((es.take limit).map fun e => before ++ (opened e.1 e.2 ++ after)) := by
  intro l es
  have hl : TreeShaped l := treeShaped_ofDeclarations hds
  have hspan := Query.importPath_mem_positions.1 hline
  refine ⟨(pairwise_continuing l typed).imp Text.bytes_lt_bytes, fun k => ?_,
    fun e => hl.kind_of_mem_continuing, (Query.importSpan?_eq_some hspan).1,
    path_offer_eq hl htyped hspan limit c⟩
  rw [← mem_keys_iff_atOrAbove hds, Table.mem_keys_iff, Option.isSome_iff_exists]
  simp only [es, List.mem_map, Prod.exists, exists_and_right, exists_eq_right, mem_continuing_iff]
  rfl

/-- A file and a directory that go on alike; what lies further down is not proposed. -/
theorem proposals_for_samples :
    let ds : List Declaration := [.file "samples/feed.xml", .directory "samples/feeds//",
      .file "samples/feeds/jan.xml", .file "samples/adi/package.xml"]
    let c : Context := ⟨Table.empty, Table.empty, none, Listing.empty.fileSystem⟩
    let files := (ofDeclarations ds).fileSystem
    let line : Text := "é import \"samples/fe\" x"
    (∀ decl ∈ ds, Gapless decl.path) ∧ Glob.Literal "samples/fe" ∧
      .importPath "é import \"" "samples/fe" "\" x" ∈ Query.positions line ∧
      (path 9).offer line { c with files := files } = .answer
        ["é import \"samples/feed.xml\" x".toList, "é import \"samples/feeds/\" x".toList] ∧
      (path 1).offer line { c with files := files } = .answer
        ["é import \"samples/feed.xml\" x".toList] := by
  intro ds c files line
  have hds : ∀ decl ∈ ds, Gapless decl.path := by decide
  have htyped : Glob.Literal "samples/fe" := by simp [Glob.Literal]
  have hline : .importPath "é import \"" "samples/fe" "\" x" ∈ Query.positions line := by
    decide +kernel
  have hanswer (limit : Nat) :=
    (proposals_continue_typed ds hds limit line _ _ _ c hline htyped).2.2.2.2
  refine ⟨hds, htyped, hline, (hanswer 9).trans ?_, (hanswer 1).trans ?_⟩
  · exact congrArg Reply.answer (by decide +kernel)
  · exact congrArg Reply.answer (by decide +kernel)

end Source

namespace Query

variable {line before typed after more : Text}

theorem firstImport_of_rest {start rest : Text} (rest' : Text)
    (h : FirstWordStart ImportAhead false (start ++ ("import".toList ++ rest)) start
      ("import".toList ++ rest)) :
    FirstWordStart ImportAhead false (start ++ ("import".toList ++ rest')) start
      ("import".toList ++ rest') := by
  refine ⟨⟨rfl, h.behind, List.prefix_append _ _⟩, fun b r hcut => ?_⟩
  by_contra hlt
  -- an earlier place would lie before the same letters in the first line too
  obtain ⟨skipped, rfl⟩ : b <+: start :=
    List.prefix_of_prefix_length_le ⟨r, hcut.eq.symm⟩ (List.prefix_append _ _) (by omega)
  have hr : skipped ++ "import".toList <+: r := by
    have heq := hcut.eq
    rw [List.append_assoc] at heq
    rw [← List.append_cancel_left heq, ← List.append_assoc]
    exact List.prefix_append _ _
  have hahead : "import".toList <+: skipped ++ "import".toList :=
    List.prefix_of_prefix_length_le hcut.ahead hr (by simp)
  have hearlier : WordStart ImportAhead false (b ++ skipped ++ ("import".toList ++ rest)) b
      (skipped ++ ("import".toList ++ rest)) := by
    refine ⟨List.append_assoc .., hcut.behind, ?_⟩
    rw [← List.append_assoc]
    exact hahead.trans (List.prefix_append _ _)
  exact hlt (h.first b _ hearlier)

theorem TypedImport.extend (h : TypedImport line before typed after)
    (hquote : ∀ c ∈ more, isQuote c = false)
    (hlast : ∀ c, (typed ++ more).getLast? = some c → isBlank c = false) :
    TypedImport (before ++ (typed ++ more ++ after)) before (typed ++ more) after := by
  obtain ⟨start, lead, rfl, hfirst, hopens, ⟨gap, rest, rfl, hplain, hrest, hgap, _⟩, hne⟩ := h
  obtain rfl := hfirst.eq
  refine ⟨start, lead, rfl, ?_, ?_, ?_, by simp [hne]⟩
  · have hnext := firstImport_of_rest (lead ++ (typed ++ more ++ (gap ++ rest))) hfirst
    simpa only [List.append_assoc] using hnext
  · obtain ⟨blanks, hblanks, ⟨rfl, hhead⟩ | hquoted⟩ := hopens
    · refine ⟨lead, hblanks, Or.inl ⟨rfl, fun c hc => hhead c ?_⟩⟩
      obtain ⟨d, typed, rfl⟩ := List.exists_cons_of_ne_nil hne
      simpa using hc
    · exact ⟨blanks, hblanks, Or.inr hquoted⟩
  · refine ⟨gap, rest, rfl, fun c hc => ?_, hrest, hgap, hlast⟩
    simp only [List.mem_append] at hc hplain
    rcases hc with (hc | hc) | hc
    · exact hplain c (Or.inl hc)
    · exact hquote c hc
    · exact hplain c (Or.inr hc)

/-- The path is typed in the import of the line, from the given byte on. -/
def TypedAt (line path : Text) (start : Nat) : Prop :=
  ∃ before after, .importPath before path after ∈ positions line ∧
    (importRange before path).1 = start

end Query

namespace Source

open Listing Query

variable {line before typed after : Text}

/-- A completed line has the completed path where the typed one stood.  A directory is left open, so
that the completion can go on inside it; a file is read back unless its name ends in a blank. -/
theorem typedAt_opened {k : Text} (kind : EntryKind)
    (hline : TypedImport line before typed after) (hk : Continues typed k)
    (hquote : ∀ ch ∈ k, isQuote ch = false)
    (hfile : kind = .file → ∀ ch, k.getLast? = some ch → isBlank ch = false) :
    TypedAt (before ++ (opened k kind ++ after)) (opened k kind) (importRange before typed).1 := by
  obtain ⟨more, rfl, _⟩ := hk
  have hmore : ∀ ch ∈ more, isQuote ch = false := fun ch hch => hquote ch (by simp [hch])
  have himport : TypedImport (before ++ (opened (typed ++ more) kind ++ after)) before
      (opened (typed ++ more) kind) after := by
    cases kind with
    | file => exact hline.extend hmore (hfile rfl)
    | directory =>
      have hopen : ∀ ch ∈ more ++ ['/'], isQuote ch = false := by
        simpa [or_imp, forall_and] using ⟨hmore, by decide⟩
      have hslash : ∀ ch, (typed ++ (more ++ ['/'])).getLast? = some ch → isBlank ch = false := by
        intro ch hch
        obtain rfl : '/' = ch := by simpa [List.getLast?_append] using hch
        decide
      have hnext := hline.extend hopen hslash
      rwa [← List.append_assoc typed] at hnext
  exact ⟨before, after, importPath_mem_positions.2 (importSpan?_eq_some_iff.2 himport), rfl⟩

/-- Completion can go on inside what it completed.  Each line that is answered comes from an entry;
if the entry has no quotes, the import of that line has the entry as its path, from the same byte on
as in the line before: with a separator behind it if it is a directory, and as it is if it is a file
whose name does not end in a blank. -/
theorem completion_goes_on (ds : List Declaration) (hds : ∀ decl ∈ ds, Gapless decl.path)
    (limit : Nat) (line before typed after : Text) (c : Context)
    (hline : .importPath before typed after ∈ positions line) (htyped : Glob.Literal typed) :
    let l := ofDeclarations ds
    let es := (l.continuing typed).take limit
    let completed := fun e : Text × EntryKind => before ++ (opened e.1 e.2 ++ after)
    let start := (importRange before typed).1
    pathEntries l.fileSystem limit typed = .ok (es.map Prod.fst) ∧
      (path limit).offer line { c with files := l.fileSystem } = .answer (es.map completed) ∧
      ∀ e ∈ es, l.kind e.1 = .ok e.2 ∧ ((∀ ch ∈ e.1, isQuote ch = false) →
        (e.2 = .directory → TypedAt (completed e) (e.1 ++ ['/']) start) ∧
        (e.2 = .file → (∀ ch, e.1.getLast? = some ch → isBlank ch = false) →
          TypedAt (completed e) e.1 start)) := by
  intro l es completed start
  have hl : TreeShaped l := treeShaped_ofDeclarations hds
  have hspan := importPath_mem_positions.1 hline
  have hentries := (pathEntries_eq_glob hl typed limit).trans (glob_literal l htyped limit)
  refine ⟨hentries, path_offer_eq hl htyped hspan limit c, fun e he => ?_⟩
  have hmem := List.mem_of_mem_take he
  refine ⟨hl.kind_of_mem_continuing hmem, fun hquote => ?_⟩
  have hread := typedAt_opened e.2 (importSpan?_eq_some_iff.1 hspan) (mem_continuing_iff.1 hmem).2
    hquote
  obtain ⟨k, kind⟩ := e
  refine ⟨?_, ?_⟩
  · rintro rfl
    exact hread (by simp)
  · rintro rfl hlast
    exact hread fun _ => hlast

/-- A directory and a file between quotes, both with a wide letter, and the lines that are answered
for what they begin with. -/
theorem completion_goes_on_between_quotes :
    let ds : List Declaration := [.file "été/a b.xml", .file "ét"]
    let c : Context := ⟨Table.empty, Table.empty, none, Listing.empty.fileSystem⟩
    let files := (ofDeclarations ds).fileSystem
    let line : Text := "a import 'é ' import x"
    (∀ decl ∈ ds, Gapless decl.path) ∧ Glob.Literal "é" ∧
      .importPath "a import '" "é" " ' import x" ∈ positions line ∧
      (path 9).offer line { c with files := files } = .answer
        ["a import 'ét ' import x".toList, "a import 'été/ ' import x".toList] ∧
      (∀ ch ∈ "été".toList, isQuote ch = false) ∧
      TypedAt "a import 'été/ ' import x" "été/" 10 ∧
      (∀ ch, "ét".toList.getLast? = some ch → isBlank ch = false) ∧
      TypedAt "a import 'ét ' import x" "ét" 10 := by
  intro ds c files line
  have hds : ∀ decl ∈ ds, Gapless decl.path := by decide
  have htyped : Glob.Literal "é" := by simp [Glob.Literal]
  have hline : .importPath "a import '" "é" " ' import x" ∈ positions line := by decide +kernel
  obtain ⟨_, hanswer, hread⟩ := completion_goes_on ds hds 9 line _ _ _ c hline htyped
  have hes : ((ofDeclarations ds).continuing "é").take 9 =
      [("ét".toList, .file), ("été".toList, .directory)] := by decide +kernel
  rw [hes] at hanswer hread
  have hquote : ∀ ch ∈ "été".toList, isQuote ch = false := by simp [isQuote]
  have hquote' : ∀ ch ∈ "ét".toList, isQuote ch = false := by simp [isQuote]
  have hlast : ∀ ch, "ét".toList.getLast? = some ch → isBlank ch = false := by
    intro ch hch
    obtain rfl : 't' = ch := Option.some.inj hch
    decide
  exact ⟨hds, htyped, hline, hanswer, hquote,
    ((hread ("été".toList, .directory) (by simp)).2 hquote).1 rfl, hlast,
    ((hread ("ét".toList, .file) (by simp)).2 hquote').2 rfl hlast⟩

end Source
end ManifestShell
