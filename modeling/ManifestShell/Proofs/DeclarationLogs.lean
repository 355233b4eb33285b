import ManifestShell.Proofs.ListedTrees
import ManifestShell.Proofs.PatternGrammar
import ManifestShell.Proofs.Tables

/-! A listing as the log of its declarations.
What a listing says about a path can be read off the declarations, without the listing: the last one
that names the path decides, whatever was declared below it before or after.  Only a path that no
declaration names is a directory because something lies below it. -/
namespace ManifestShell.Listing

variable {ds : List Declaration} {x p : Text}

/-- What the declarations say about a path: the kind in the last one that names it, or else that it
is a directory if it lies above a declared path. -/
def recorded? (ds : List Declaration) (x : Text) : Option EntryKind :=
  ((ds.reverse.find? fun decl => decl.path = x).map Declaration.kind).or
    (if ∃ decl ∈ ds, x ++ ['/'] <+: decl.path then some .directory else none)

/-- One more declaration decides about its own path, and about the paths above it only if nothing
was said about them. -/
theorem recorded?_concat (ds : List Declaration) (decl : Declaration) (x : Text) :
    recorded? (ds ++ [decl]) x = if decl.path = x then some decl.kind
      else (recorded? ds x).or (if x ++ ['/'] <+: decl.path then some .directory else none) := by
  rw [recorded?, List.reverse_append, List.reverse_singleton, List.singleton_append,
    List.find?_cons]
  by_cases hpath : decl.path = x
  · simp [hpath]
  · simp only [hpath, decide_false, if_false, recorded?]
    cases hnamed : ds.reverse.find? fun decl => decide (decl.path = x) with
    | some named => rfl
    | none =>
      by_cases hds : ∃ d ∈ ds, x ++ ['/'] <+: d.path
      · obtain ⟨d, hd, habove⟩ := hds
        have hall : ∃ d ∈ ds ++ [decl], x ++ ['/'] <+: d.path :=
          ⟨d, List.mem_append_left _ hd, habove⟩
        rw [if_pos hall, if_pos ⟨d, hd, habove⟩]
        rfl
      · have hall : (∃ d ∈ ds ++ [decl], x ++ ['/'] <+: d.path) ↔ x ++ ['/'] <+: decl.path := by
          simp only [List.mem_append, or_and_right, exists_or, hds, false_or, List.mem_singleton,
            exists_eq_left]
        simp only [hall, if_neg hds]
        rfl

/-- The table holds what the declarations say.  Nothing is said about the empty path because of what
lies below it. -/
theorem find?_eq_recorded? (hx : x ≠ []) :
    (ofDeclarations ds).entries.find? x = recorded? ds x := by
  induction ds using List.reverseRecOn with
  | nil => rfl
  | append_singleton ds decl ih =>
    rw [ofDeclarations_concat, find?_declare, recorded?_concat, ih]
    simp only [mem_ancestors, hx, ne_eq, not_false_eq_true, true_and]

theorem dropTrailingSeparators_append (h : x.getLast? ≠ some '/') (n : Nat) :
    dropTrailingSeparators (x ++ List.replicate n '/') = x := by
  rw [dropTrailingSeparators, List.reverse_append, List.reverse_replicate,
    List.dropWhile_append_of_pos (by simp)]
  exact dropTrailingSeparators_eq h

/-- A path without empty components may have separators behind it when its kind is asked for. -/
theorem kind_eq_recorded? (hx : Gapless x) (n : Nat) :
    (ofDeclarations ds).kind (x ++ List.replicate n '/') =
      (recorded? ds x).elim (.error (.entry (x ++ List.replicate n '/') "no such entry")) .ok := by
  rw [Listing.kind, dropTrailingSeparators_append hx.getLast?_ne, find?_eq_recorded? hx.ne_nil]
  cases recorded? ds x <;> rfl

/-- The listed paths that match are in ascending order, and of these the first ones are found. -/
theorem glob_eq_take (l : Listing) {pattern : Text} {tokens : List Glob.Token}
    (hparse : Glob.parse pattern = .ok tokens) :
    ∃ all : List Text, (all.Pairwise fun s t => Text.bytes s < Text.bytes t) ∧
      (∀ p, p ∈ all ↔ p ∈ l.entries.keys ∧ Glob.matchesText tokens p = true) ∧
      ∀ limit, l.glob pattern limit = .ok (all.take limit) := by
  have hkeys : l.entries.keys.Pairwise fun s t => Text.bytes s < Text.bytes t :=
    List.pairwise_map.2 (l.entries.ascending.imp Text.bytes_lt_bytes)
  refine ⟨l.entries.keys.filter (Glob.matchesText tokens), hkeys.filter _,
    fun p => List.mem_filter, fun limit => ?_⟩
  rw [Listing.glob, hparse]

/-- A listing declared by paths without empty components: what it says about a path, which paths it
holds, and which of them a pattern finds. -/
theorem listing_refines_log (ds : List Declaration) (hds : ∀ decl ∈ ds, Gapless decl.path) :
    let l := ofDeclarations ds
    (∀ x, Gapless x → ∀ n, l.kind (x ++ List.replicate n '/') =
      (recorded? ds x).elim (.error (.entry (x ++ List.replicate n '/') "no such entry")) .ok) ∧
    (∀ p, p ∈ l.entries.keys ↔ ∃ decl ∈ ds, p = decl.path ∨ p ++ ['/'] <+: decl.path) ∧
    (∀ p ∈ l.entries.keys, ∀ q, q ++ ['/'] <+: p → q ∈ l.entries.keys) ∧
    (∀ pattern, Glob.Pattern true pattern →
      ∃ (tokens : List Glob.Token) (all : List Text), Glob.parse pattern = .ok tokens ∧
        (all.Pairwise fun s t => Text.bytes s < Text.bytes t) ∧
        (∀ p, p ∈ all ↔ p ∈ l.entries.keys ∧ Glob.matchesText tokens p = true) ∧
        ∀ limit, l.glob pattern limit = .ok (all.take limit) ∧
          ∀ p ∈ all.take limit, ∃ kind, l.kind p = .ok kind) := by
  intro l
  have hl : TreeShaped l := treeShaped_ofDeclarations hds
  refine ⟨fun x hx n => kind_eq_recorded? hx n, fun p => mem_keys_iff_atOrAbove hds,
    fun p hp q hq => hl.closed p hp q (Or.inr hq), fun pattern hpattern => ?_⟩
  obtain ⟨tokens, hparse⟩ := Glob.parse_ok_iff.2 hpattern
  obtain ⟨all, hasc, hmem, hglob⟩ := glob_eq_take l hparse
  refine ⟨tokens, all, hparse, hasc, hmem, fun limit => ⟨hglob limit, fun p hp => ?_⟩⟩
  have hkey : p ∈ l.entries.keys := ((hmem p).1 (List.mem_of_mem_take hp)).1
  obtain ⟨kind, hkind⟩ := Option.isSome_iff_exists.1 (Table.mem_keys_iff.1 hkey)
  exact ⟨kind, hl.kind_eq hkind⟩

/-- A file with something declared below it before and after, a directory that is only implied, and
a pattern that matches more than the limit allows. -/
theorem log_of_conflicting_declarations :
    let ds : List Declaration := [.file "a/b", .file "a", .directory "a/c//", .file "d/e"]
    let l := ofDeclarations ds
    (∀ decl ∈ ds, Gapless decl.path) ∧ l.kind "a" = .ok .file ∧ l.kind "a/c" = .ok .directory ∧
      l.kind "d/" = .ok .directory ∧ l.kind "e" = .error (.entry "e" "no such entry") ∧
      l.glob "[a-z]/*" 2 = .ok ["a/b".toList, "a/c".toList] ∧
      ∃ kind, l.kind "a/c" = .ok kind := by
  intro ds l
  have hds : ∀ decl ∈ ds, Gapless decl.path := by decide
  obtain ⟨hkind, _, _, hglob⟩ := listing_refines_log ds hds
  have hpattern : Glob.Pattern true "[a-z]/*" := Glob.parse_ok_iff.1 ⟨_, rfl⟩
  obtain ⟨_, all, _, _, _, hall⟩ := hglob "[a-z]/*" hpattern
  obtain ⟨htake, hresolved⟩ := hall 2
  have hhits : l.glob "[a-z]/*" 2 = .ok ["a/b".toList, "a/c".toList] := by decide +kernel
  have hmem : "a/c".toList ∈ all.take 2 := by
    rw [← Except.ok.inj (hhits.symm.trans htake)]
    decide
  exact ⟨hds, (hkind "a" (by decide) 0).trans (by decide),
    (hkind "a/c" (by decide) 0).trans (by decide), (hkind "d" (by decide) 1).trans (by decide),
    (hkind "e" (by decide) 0).trans (by decide), hhits, hresolved _ hmem⟩

end ManifestShell.Listing
