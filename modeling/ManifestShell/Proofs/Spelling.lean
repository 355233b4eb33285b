import ManifestShell.Proofs.Expansion

/-! How the walk spells the components of a path.
A dot at the start and all empty components are left out, everything else is kept with single
separators.  So the text of a path comes back exactly if it has neither; otherwise it comes back
with fewer separators. -/
namespace ManifestShell.Disk

variable {d : Disk} {path name : Text} {components : List Text}

theorem spell_cons (path t : Text) (components : List Text) :
    spell path (t :: components) = spell (child path t) components := rfl

theorem spell_append (path : Text) (components : List Text) (t : Text) :
    spell path (components ++ [t]) = child (spell path components) t := by
  simp [spell]

theorem child_dot (t : Text) : child ['.'] t = t := by
  have hdot : isDot ['.'] = true := by decide
  rw [child, if_pos hdot]

theorem isAbsolute_spell (hs : ∀ t ∈ components, '/' ∉ t) (path : Text) :
    isAbsolute (spell path components) = isAbsolute path := by
  induction components generalizing path with
  | nil => rfl
  | cons t components ih =>
    obtain ⟨ht, hrest⟩ := List.forall_mem_cons.1 hs
    rw [spell_cons, ih hrest, isAbsolute_child ht]

theorem steps_spell (hs : ∀ t ∈ components, '/' ∉ t) (base : List Text) (path : Text) :
    d.steps base (spell path components) =
      d.steps base path >>= fun next => components.foldlM d.enter next := by
  induction components generalizing path with
  | nil => exact (bind_pure _).symm
  | cons t components ih =>
    obtain ⟨ht, hrest⟩ := List.forall_mem_cons.1 hs
    rw [spell_cons, ih hrest, steps_child ht, bind_assoc]
    rfl

theorem steps_spell_dot (hs : ∀ t ∈ components, '/' ∉ t) (hne : components ≠ [])
    (base : List Text) :
    d.steps base (spell ['.'] components) = components.foldlM d.enter base := by
  cases components with
  | nil => exact absurd rfl hne
  | cons t components =>
    obtain ⟨ht, hrest⟩ := List.forall_mem_cons.1 hs
    rw [spell_cons, child_dot, steps_spell hrest, steps_of_notMem ht, List.foldlM_cons]

theorem isDot_of_notMem (hs : '/' ∉ name) : isDot name = true ↔ name = ['.'] := by
  rw [isDot_iff, Text.splitOn_of_notMem hs]
  constructor
  · rintro ⟨rest, h, _⟩
    exact (List.cons.inj h).1
  · rintro rfl
    exact ⟨[], rfl, by simp⟩

theorem spell_ne_nil (hs : ∀ t ∈ components, '/' ∉ t) (hne : path ≠ [])
    (hdot : isDot path = false) : spell path components ≠ [] := by
  induction components generalizing path with
  | nil => exact hne
  | cons t components ih =>
    obtain ⟨ht, hrest⟩ := List.forall_mem_cons.1 hs
    have hchild : child path t = join path t := by rw [child, if_neg (by simp [hdot])]
    rw [spell_cons, hchild]
    exact ih hrest (join_ne_nil t hne) (isDot_join hne ht hdot)

/-- Part of the way has an empty spelling exactly if the first component that is not a dot is
empty. -/
theorem exists_spell_eq_nil_iff (hs : ∀ t ∈ components, '/' ∉ t) :
    (∃ way, way <+: components ∧ spell ['.'] way = []) ↔
      (components.dropWhile (· == ['.'])).head? = some [] := by
  induction components with
  | nil =>
    have hdot : spell ['.'] [] ≠ [] := by decide
    simpa [List.prefix_nil] using hdot
  | cons t components ih =>
    obtain ⟨hslash, hrest⟩ := List.forall_mem_cons.1 hs
    have hway : (∃ way, way <+: t :: components ∧ spell ['.'] way = []) ↔
        ∃ way, way <+: components ∧ spell t way = [] := by
      constructor
      · rintro ⟨way, hway, hnil⟩
        cases way with
        | nil => exact absurd hnil (by decide)
        | cons u way =>
          obtain ⟨rfl, htail⟩ := List.cons_prefix_cons.1 hway
          exact ⟨way, htail, by rwa [spell_cons, child_dot] at hnil⟩
      · rintro ⟨way, hway, hnil⟩
        exact ⟨t :: way, List.cons_prefix_cons.2 ⟨rfl, hway⟩, by rwa [spell_cons, child_dot]⟩
    rw [hway]
    by_cases ht : t = ['.']
    · subst ht
      rw [ih hrest]
      simp
    · have hhead : ((t :: components).dropWhile (· == ['.'])).head? = some t := by simp [ht]
      rw [hhead, Option.some.injEq]
      constructor
      · rintro ⟨way, hway, hnil⟩
        by_contra hne
        have hdot : isDot t = false := by
          rwa [← Bool.not_eq_true, isDot_of_notMem hslash]
        exact spell_ne_nil (fun u hu => hrest u (hway.subset hu)) hne hdot hnil
      · rintro rfl
        exact ⟨[], List.nil_prefix, rfl⟩

theorem byteSize_child_le (path t : Text) :
    Text.byteSize (child path t) ≤ Text.byteSize (path ++ '/' :: t) := by
  have hslash : Text.byteSize ('/' :: t) = 1 + Text.byteSize t := rfl
  unfold child join
  split_ifs <;> simp only [Text.byteSize_append, hslash] <;> omega

/-- No part of the way is spelled longer than it was written. -/
theorem byteSize_spell_le {s : Text} {way : List Text} (hway : way <+: Text.splitOn '/' s)
    (hne : way ≠ []) : Text.byteSize (spell ['.'] way) ≤ Text.byteSize s := by
  induction s using Text.cutInduction '/' generalizing way with
  | piece t ht =>
    rw [Text.splitOn_of_notMem ht] at hway
    cases way with
    | nil => exact absurd rfl hne
    | cons u way =>
      obtain ⟨rfl, htail⟩ := List.cons_prefix_cons.1 hway
      rw [List.prefix_nil.1 htail, spell_cons, child_dot]
      exact Nat.le_refl _
  | cut before after hafter ih =>
    rw [Text.splitOn_append_cons, Text.splitOn_of_notMem hafter] at hway
    rcases List.prefix_concat_iff.1 hway with rfl | hway
    · have hbefore := ih List.prefix_rfl (Text.splitOn_ne_nil '/' before)
      have hchild := byteSize_child_le (spell ['.'] (Text.splitOn '/' before)) after
      rw [spell_append]
      simp only [Text.byteSize_append] at hchild ⊢
      omega
    · have hbefore := ih hway hne
      simp only [Text.byteSize_append]
      omega

/-- The number of separators in front of a name that is put behind the path. -/
def separators (path : Text) : Nat :=
  if path = [] ∨ isDot path = true then 0 else (stem path).count '/' + 1

theorem count_child (hs : '/' ∉ name) (path : Text) :
    (child path name).count '/' = separators path := by
  have hnone : name.count '/' = 0 := List.count_eq_zero.2 hs
  unfold child separators
  by_cases hdot : isDot path = true
  · simp [hdot, hnone]
  · by_cases hne : path = []
    · simp [hne, join, isAbsolute_of_notMem hs, hnone]
    · simp [hdot, hne, join_eq hne (isAbsolute_of_notMem hs), hnone]

theorem separators_le (path : Text) : separators path ≤ (stem path).count '/' + 1 := by
  unfold separators
  split_ifs <;> omega

theorem count_stem_le (path : Text) : (stem path).count '/' ≤ path.count '/' := by
  rcases eq_stem_or path with ⟨h, _⟩ | h
  · rw [← h]
  · nth_rewrite 2 [h]
    simp

theorem separators_child_le (hs : '/' ∉ name) (path : Text) :
    separators (child path name) ≤ separators path + 1 := by
  have h := separators_le (child path name)
  have h' := count_stem_le (child path name)
  rw [count_child hs] at h'
  omega

theorem separators_child_nil (path : Text) : separators (child path []) ≤ separators path := by
  by_cases hdot : isDot path = true
  · simp [child, hdot, separators]
  · by_cases hne : path = []
    · subst hne
      exact Nat.le_of_eq rfl
    · have hchild : child path [] = stem path ++ ['/'] := by
        rw [child, if_neg hdot, join_eq hne rfl]
      have h := separators_le (child path [])
      rw [hchild, stem_concat] at h
      rw [hchild]
      simpa [separators, hdot, hne] using h

theorem separators_spell_le (hs : ∀ t ∈ components, '/' ∉ t) (path : Text) :
    separators (spell path components) + (if [] ∈ components then 1 else 0) ≤
      separators path + components.length := by
  induction components generalizing path with
  | nil => simp [spell]
  | cons t components ih =>
    obtain ⟨hslash, hrest⟩ := List.forall_mem_cons.1 hs
    have hspell := ih hrest (child path t)
    rw [spell_cons, List.length_cons]
    by_cases ht : t = []
    · subst ht
      have hnil := separators_child_nil path
      have hle : (if [] ∈ components then 1 else 0) ≤ 1 := by split_ifs <;> omega
      simp only [List.mem_cons, true_or, if_true]
      omega
    · have hle := separators_child_le hslash path
      simp only [List.mem_cons, Ne.symm ht, false_or]
      omega

/-- A dot at the start or an empty component costs a separator. -/
theorem separators_spell_lt (hs : ∀ t ∈ components, '/' ∉ t)
    (h : components.head? = some ['.'] ∨ [] ∈ components) :
    separators (spell ['.'] components) < components.length := by
  have hdot : separators ['.'] = 0 := by decide
  rcases h with h | h
  · obtain ⟨rest, rfl⟩ := List.head?_eq_some_iff.1 h
    have hle := separators_spell_le (fun u hu => hs u (List.mem_cons_of_mem _ hu)) ['.']
    rw [spell_cons, child_dot, List.length_cons]
    omega
  · have hle := separators_spell_le hs ['.']
    rw [if_pos h] at hle
    omega

theorem count_spell_lt (hs : ∀ t ∈ components, '/' ∉ t) (hne : components ≠ []) :
    (spell ['.'] components).count '/' < components.length := by
  have hdot : separators ['.'] = 0 := by decide
  rcases List.eq_nil_or_concat components with rfl | ⟨init, t, rfl⟩
  · exact absurd rfl hne
  · rw [List.concat_eq_append] at hs ⊢
    have hle := separators_spell_le (fun u hu => hs u (List.mem_append_left _ hu)) ['.']
    rw [spell_append, count_child (hs t (by simp)), List.length_append, List.length_singleton]
    omega

/-- No dot at the start and no empty components. -/
def Plain (s : Text) : Prop :=
  (Text.splitOn '/' s).head? ≠ some ['.'] ∧ [] ∉ Text.splitOn '/' s

instance (s : Text) : Decidable (Plain s) :=
  inferInstanceAs (Decidable (_ ∧ _))

theorem Plain.ne_nil {s : Text} (h : Plain s) : s ≠ [] := by
  rintro rfl
  exact h.2 List.mem_cons_self

theorem Plain.stem {s : Text} (h : Plain s) : stem s = s := by
  refine stem_of_getLast? fun hl => h.2 ?_
  obtain ⟨before, rfl⟩ := List.getLast?_eq_some_iff.1 hl
  simp [Text.splitOn_append_cons, Text.splitOn]

theorem Plain.isDot {s : Text} (h : Plain s) : isDot s = false := by
  rw [← Bool.not_eq_true, isDot_iff]
  rintro ⟨rest, hrest, _⟩
  exact h.1 (by rw [hrest, List.head?_cons])

theorem Plain.before {before after : Text} (h : Plain (before ++ '/' :: after)) : Plain before := by
  rw [Plain, Text.splitOn_append_cons,
    List.head?_append_of_ne_nil _ (Text.splitOn_ne_nil '/' before)] at h
  exact ⟨h.1, fun hm => h.2 (List.mem_append_left _ hm)⟩

/-- The text of a plain path comes back. -/
theorem spell_splitOn {s : Text} (h : Plain s) : spell ['.'] (Text.splitOn '/' s) = s := by
  induction s using Text.cutInduction '/' with
  | piece t ht =>
    rw [Text.splitOn_of_notMem ht, spell_cons, child_dot]
    rfl
  | cut before after hafter ih =>
    have hbefore := h.before
    rw [Text.splitOn_append_cons, Text.splitOn_of_notMem hafter, spell_append, ih hbefore, child,
      if_neg (by simp [hbefore.isDot]), join_eq hbefore.ne_nil (isAbsolute_of_notMem hafter),
      hbefore.stem]

end ManifestShell.Disk
