import ManifestShell.Proofs.Declarations

/-! Listings as trees.
Declaring a path lists what lies above it, so the listed paths are closed under going up.  If no
declared path has an empty component, then no listed one has, and going up from a listed path never
leads to the empty path, which is not listed. -/
namespace ManifestShell.Listing

variable {l : Listing} {ds : List Declaration} {decl : Declaration} {k p path rest : Text}

/-- No component is empty.  Such a path is relative and does not end in a separator. -/
def Gapless (path : Text) : Prop := [] ∉ Text.splitOn '/' path

instance (path : Text) : Decidable (Gapless path) :=
  inferInstanceAs (Decidable ([] ∉ Text.splitOn '/' path))

/-- The first path is the second one, or what stands before one of its separators. -/
def AtOrAbove (p path : Text) : Prop := p = path ∨ p ++ ['/'] <+: path

theorem not_gapless_nil : ¬ Gapless [] := by simp [Gapless, Text.splitOn]

theorem gapless_append_cons : Gapless (p ++ '/' :: rest) ↔ Gapless p ∧ Gapless rest := by
  simp [Gapless, Text.splitOn_append_cons]

theorem Gapless.ne_nil (h : Gapless path) : path ≠ [] := by
  rintro rfl
  exact not_gapless_nil h

theorem Gapless.getLast?_ne (h : Gapless path) : path.getLast? ≠ some '/' := by
  intro hlast
  obtain ⟨before, rfl⟩ := List.getLast?_eq_some_iff.1 hlast
  exact not_gapless_nil (gapless_append_cons.1 h).2

theorem AtOrAbove.refl (path : Text) : AtOrAbove path path := Or.inl rfl

theorem atOrAbove_append_cons (p rest : Text) : AtOrAbove p (p ++ '/' :: rest) :=
  Or.inr ⟨rest, by simp⟩

theorem AtOrAbove.append_left (h : AtOrAbove p path) (front : Text) :
    AtOrAbove (front ++ p) (front ++ path) := by
  rcases h with rfl | ⟨rest, rfl⟩
  · exact .refl _
  · exact Or.inr ⟨rest, by simp⟩

theorem AtOrAbove.trans (h : AtOrAbove k p) (hp : AtOrAbove p path) : AtOrAbove k path := by
  rcases hp with rfl | hp
  · exact h
  · rcases h with rfl | hk
    · exact Or.inr hp
    · exact Or.inr (hk.trans ((List.prefix_append p ['/']).trans hp))

theorem Gapless.of_atOrAbove (h : Gapless path) (hp : AtOrAbove p path) : Gapless p := by
  rcases hp with rfl | ⟨rest, rfl⟩
  · exact h
  · rw [List.append_assoc, List.singleton_append] at h
    exact (gapless_append_cons.1 h).1

/-- Above a path without empty components there are no other paths than its ancestors. -/
theorem Gapless.atOrAbove_iff (h : Gapless path) :
    AtOrAbove p path ↔ p = path ∨ p ∈ ancestors path := by
  rw [mem_ancestors]
  refine ⟨fun hp => ?_, Or.imp_right And.right⟩
  exact hp.imp_right fun hpre => ⟨(h.of_atOrAbove hp).ne_nil, hpre⟩

/-- The listed paths have no empty components, and what lies above them is listed. -/
structure TreeShaped (l : Listing) : Prop where
  gapless : ∀ k ∈ l.entries.keys, Gapless k
  closed : ∀ k ∈ l.entries.keys, ∀ p, AtOrAbove p k → p ∈ l.entries.keys

theorem treeShaped_empty : TreeShaped empty where
  gapless k hk := by cases hk
  closed k hk := by cases hk

theorem TreeShaped.declare (h : TreeShaped l) (hdecl : Gapless decl.path) :
    TreeShaped (l.declare decl) := by
  constructor
  · intro k hk
    rcases mem_keys_declare.1 hk with hnew | hold
    · exact hdecl.of_atOrAbove (hdecl.atOrAbove_iff.2 hnew)
    · exact h.gapless k hold
  · intro k hk p hp
    rw [mem_keys_declare] at hk ⊢
    rcases hk with hnew | hold
    · exact Or.inl (hdecl.atOrAbove_iff.1 (hp.trans (hdecl.atOrAbove_iff.2 hnew)))
    · exact Or.inr (h.closed k hold p hp)

theorem treeShaped_ofDeclarations (hds : ∀ decl ∈ ds, Gapless decl.path) :
    TreeShaped (ofDeclarations ds) := by
  induction ds using List.reverseRecOn with
  | nil => exact treeShaped_empty
  | append_singleton ds last ih =>
    rw [ofDeclarations_concat]
    exact (ih fun decl hmem => hds decl (by simp [hmem])).declare (hds last (by simp))

theorem mem_keys_iff_atOrAbove (hds : ∀ decl ∈ ds, Gapless decl.path) :
    k ∈ (ofDeclarations ds).entries.keys ↔ ∃ decl ∈ ds, AtOrAbove k decl.path := by
  rw [mem_keys_ofDeclarations]
  constructor
  · rintro ⟨decl, hmem, hk⟩
    exact ⟨decl, hmem, (hds decl hmem).atOrAbove_iff.2 hk⟩
  · rintro ⟨decl, hmem, hk⟩
    exact ⟨decl, hmem, (hds decl hmem).atOrAbove_iff.1 hk⟩

theorem TreeShaped.kind_eq {kind : EntryKind} (h : TreeShaped l)
    (hfind : l.entries.find? k = some kind) : l.kind k = .ok kind := by
  have hkey : k ∈ l.entries.keys := Table.mem_keys_iff.2 (by rw [hfind]; rfl)
  simp only [Listing.kind, dropTrailingSeparators_eq (h.gapless k hkey).getLast?_ne, hfind]

end ManifestShell.Listing
