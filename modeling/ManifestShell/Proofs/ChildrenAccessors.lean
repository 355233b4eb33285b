import ManifestShell.Proofs.Segments
import ManifestShell.Query

/-! The accessor at the end of a line.
A line that ends in `children` and some letters may go on with an index, one that ends in
`children:` and some letters may not.  Both ends are looked for anywhere in the line, so the second
one can be found at an accessor before the last: an accessor right behind another is never offered
an index. -/
namespace ManifestShell

namespace Text

/-- The text around the last occurrence of `needle`. -/
structure LastPart (needle t before after : Text) : Prop where
  eq : t = before ++ (needle ++ after)
  last : ∀ b a, t = b ++ (needle ++ a) → b.length ≤ before.length

theorem exists_lastPart {needle t before after : Text} (h : t = before ++ (needle ++ after)) :
    ∃ b a, LastPart needle t b a := by
  -- an occurrence further right leaves less text after it
  induction hn : after.length using Nat.strongRecOn generalizing before after with
  | ind n ih =>
    by_cases hlast : ∀ b a, t = b ++ (needle ++ a) → b.length ≤ before.length
    · exact ⟨before, after, h, hlast⟩
    · simp only [not_forall, Nat.not_le] at hlast
      obtain ⟨b, a, hb, hlonger⟩ := hlast
      have hlen := congrArg List.length (h.symm.trans hb)
      simp only [List.length_append] at hlen
      exact ih a.length (by omega) hb rfl

theorem LastPart.isSuffix {needle t before after b a : Text} (h : LastPart needle t before after)
    (hb : t = b ++ (needle ++ a)) : after <:+ a := by
  have hafter : after <:+ t := ⟨before ++ needle, by rw [h.eq, List.append_assoc]⟩
  have ha : a <:+ t := ⟨b ++ needle, by rw [hb, List.append_assoc]⟩
  have hlen := congrArg List.length (h.eq.symm.trans hb)
  have hle := h.last b a hb
  simp only [List.length_append] at hlen
  exact List.suffix_of_suffix_length_le hafter ha (by omega)

theorem append_cons_eq_append {sep : Char} {before after t rest : Text} (hrest : sep ∉ rest)
    (h : before ++ sep :: after = t ++ rest) :
    ∃ between, t = before ++ sep :: between ∧ after = between ++ rest := by
  rcases List.append_eq_append_iff.1 h with ⟨u, rfl, hu⟩ | ⟨u, rfl, rfl⟩
  · cases u with
    | nil =>
      obtain rfl : sep :: after = rest := hu
      simp at hrest
    | cons d u =>
      obtain ⟨rfl, rfl⟩ := List.cons.inj hu
      exact ⟨u, rfl, rfl⟩
  · simp at hrest

end Text

namespace Query

open Text

variable {line before after : Text}

theorem mem_afterChildren :
    after ∈ afterChildren line ↔ ∃ before, line = before ++ ("children".toList ++ after) := by
  simp only [afterChildren, List.mem_filterMap, mem_tails, dropStart?_eq_some_iff]
  constructor
  · rintro ⟨t, ⟨before, rfl⟩, rfl⟩
    exact ⟨before, rfl⟩
  · rintro ⟨before, rfl⟩
    exact ⟨_, List.suffix_append before _, rfl⟩

/-- Letters and hyphens, of which the name of an ordinal is made. -/
def AccessorText (t : Text) : Prop := ∀ c ∈ t, isAccessorChar c = true

theorem endsInChildrenColon_iff : endsInChildrenColon line = true ↔
    ∃ before name, line = before ++ ("children".toList ++ ':' :: name) ∧ AccessorText name := by
  rw [endsInChildrenColon, List.any_eq_true]
  constructor
  · rintro ⟨after, hafter, hname⟩
    obtain ⟨before, rfl⟩ := mem_afterChildren.1 hafter
    split at hname
    · rename_i name
      exact ⟨before, name, rfl, List.all_eq_true.1 hname⟩
    · cases hname
  · rintro ⟨before, name, rfl, hname⟩
    exact ⟨':' :: name, mem_afterChildren.2 ⟨before, rfl⟩, List.all_eq_true.2 hname⟩

theorem endsInChildren_iff : endsInChildren line = true ↔
    endsInChildrenColon line = true ∨
      ∃ before name, line = before ++ ("children".toList ++ name) ∧ AccessorText name := by
  rw [endsInChildren, Bool.or_eq_true, List.any_eq_true]
  refine or_congr_right ?_
  simp only [mem_afterChildren, List.all_eq_true]
  constructor
  · rintro ⟨name, ⟨before, rfl⟩, hname⟩
    exact ⟨before, name, rfl, hname⟩
  · rintro ⟨before, name, rfl, hname⟩
    exact ⟨name, ⟨before, rfl⟩, hname⟩

theorem AccessorText.notMem_colon {t : Text} (h : AccessorText t) : ':' ∉ t := fun hmem =>
  absurd (h ':' hmem) (by decide)

theorem accessorText_children : AccessorText "children" := List.all_eq_true.1 (by decide)

/-- A colon was typed behind the last `children`, or behind one that only letters and hyphens
separate from the last. -/
theorem endsInChildrenColon_of_lastPart (hends : endsInChildren line = true)
    (hlast : LastPart "children" line before after) :
    endsInChildrenColon line = true ↔ ':' ∈ after ∨ endsInChildrenColon before = true := by
  constructor
  · intro h
    obtain ⟨b, name, hline, hname⟩ := endsInChildrenColon_iff.1 h
    refine or_iff_not_imp_left.2 fun hcolon => ?_
    -- from the last accessor on there is no colon, so the one that was found lies before it
    have hrest : ':' ∉ "children".toList ++ after :=
      List.not_mem_append accessorText_children.notMem_colon hcolon
    obtain ⟨between, hbefore, hbetween⟩ := append_cons_eq_append hrest
      (show b ++ "children".toList ++ ':' :: name = before ++ ("children".toList ++ after) by
        rw [List.append_assoc, ← hline, hlast.eq])
    refine endsInChildrenColon_iff.2 ⟨b, between, by rw [hbefore, List.append_assoc], ?_⟩
    exact fun c hc => hname c (hbetween ▸ List.mem_append_left _ hc)
  · intro h
    rcases endsInChildren_iff.1 hends with hcolon | ⟨b, name, hline, hname⟩
    · exact hcolon
    · have hafter : AccessorText after := fun c hc =>
        hname c ((hlast.isSuffix hline).subset hc)
      rcases h with hcolon | hbefore
      · exact absurd hcolon hafter.notMem_colon
      · obtain ⟨b, between, rfl, hbetween⟩ := endsInChildrenColon_iff.1 hbefore
        refine endsInChildrenColon_iff.2
          ⟨b, between ++ ("children".toList ++ after), by simp [hlast.eq], ?_⟩
        intro c hc
        rcases List.mem_append.1 hc with hc | hc
        · exact hbetween c hc
        · exact (List.mem_append.1 hc).elim (accessorText_children c) (hafter c)

theorem getLast?_of_mem_indexForms {t : Text} (h : t ∈ indexForms line) :
    t.getLast? = some ']' := by
  obtain ⟨i, _, rfl⟩ := List.mem_map.1 h
  exact List.getLast?_concat

/-- Every word of the language, with or without something in front of it in a candidate. -/
def fixedWords : List Text :=
  accessors ++ selectors ++ rootSelector :: bracketWords ++ typeKeywords ++ ordinals

theorem mem_fixedWords {w : Text} : w ∈ fixedWords ↔ w ∈ accessors ++ selectors ∨
    w = rootSelector ∨ w ∈ bracketWords ∨ w ∈ typeKeywords ∨ w ∈ ordinals := by
  simp only [fixedWords, List.mem_append, List.mem_cons, or_assoc]

theorem getLast?_append_of_mem_fixedWords {w : Text} (h : w ∈ fixedWords) (u : Text) :
    (u ++ w).getLast? ≠ some ']' := by
  have hall : (fixedWords.all fun w => w.getLast?.any (· != ']')) = true := by decide +kernel
  have hw := List.all_eq_true.1 hall w h
  simp only [Option.any_eq_true, bne_iff_ne] at hw
  obtain ⟨c, hc, hne⟩ := hw
  simp [List.getLast?_append, hc, hne]

/-- Only where an index may follow does a word that is offered end like one. -/
theorem getLast?_of_mem_vocabulary {t : Text} (hno : .ordinalAccessor true ∉ positions line)
    (h : t ∈ vocabulary line) : t.getLast? ≠ some ']' := by
  rw [vocabulary, List.mem_append, List.mem_flatMap] at h
  rcases h with h | ⟨p, hp, hmem⟩
  · exact getLast?_append_of_mem_fixedWords (mem_fixedWords.2 (Or.inl h)) []
  · cases p with
    | root =>
      have hword : t = rootSelector := List.mem_singleton.1 hmem
      exact getLast?_append_of_mem_fixedWords (mem_fixedWords.2 (by tauto)) []
    | bracketPredicate =>
      have hword : t ∈ bracketWords := hmem
      exact getLast?_append_of_mem_fixedWords (mem_fixedWords.2 (by tauto)) []
    | typeCast stem =>
      obtain ⟨w, hw, rfl⟩ := List.mem_map.1 hmem
      exact getLast?_append_of_mem_fixedWords (mem_fixedWords.2 (by tauto)) stem
    | ordinalAccessor indexed =>
      cases indexed with
      | true => exact absurd hp hno
      | false =>
        obtain ⟨w, hw, rfl⟩ := List.mem_map.1 hmem
        rw [List.append_cons]
        exact getLast?_append_of_mem_fixedWords (mem_fixedWords.2 (by tauto)) _
    | importPath | deepDescendant | insideBracket => cases hmem

/-- The indices are offered, all of them or none, exactly if no colon follows the last `children`
and none that follows an earlier one is separated from the last by letters and hyphens only. -/
theorem indices_offered_iff (line : Text) (indexed : Bool)
    (h : .ordinalAccessor indexed ∈ positions line) :
    (indexed = true ↔ ∀ t ∈ indexForms line, t ∈ vocabulary line) ∧
    (indexed = true ↔ ∃ t ∈ indexForms line, t ∈ vocabulary line) ∧
    ∃ before after, LastPart "children" line before after ∧
      (indexed = true ↔ ':' ∉ after ∧ ¬ ∃ b name,
        before = b ++ ("children".toList ++ ':' :: name) ∧ AccessorText name) := by
  obtain ⟨hends, hindexed⟩ := ordinalAccessor_mem_positions.1 h
  have hall (ht : indexed = true) (t : Text) (hmem : t ∈ indexForms line) : t ∈ vocabulary line :=
    List.mem_append_right _ (List.mem_flatMap.2 ⟨_, ht ▸ h, List.mem_append_left _ hmem⟩)
  -- an index ends in a bracket, and nothing else that is offered does
  have hsome (hex : ∃ t ∈ indexForms line, t ∈ vocabulary line) : indexed = true := by
    obtain ⟨t, hmem, hoffered⟩ := hex
    by_contra hno
    have hnot : .ordinalAccessor true ∉ positions line := fun hp =>
      hno (hindexed.trans (ordinalAccessor_mem_positions.1 hp).2.symm)
    exact getLast?_of_mem_vocabulary hnot hoffered (getLast?_of_mem_indexForms hmem)
  have hfirst : line ++ "[0]".toList ∈ indexForms line :=
    List.mem_map.2 ⟨0, by decide, by simp [Text.ofNat]⟩
  refine ⟨⟨hall, fun ha => hsome ⟨_, hfirst, ha _ hfirst⟩⟩,
    ⟨fun ht => ⟨_, hfirst, hall ht _ hfirst⟩, hsome⟩, ?_⟩
  have hoccurs : ∃ b a, line = b ++ ("children".toList ++ a) := by
    rcases endsInChildren_iff.1 hends with hcolon | ⟨b, name, hline, _⟩
    · obtain ⟨b, name, hline, _⟩ := endsInChildrenColon_iff.1 hcolon
      exact ⟨b, _, hline⟩
    · exact ⟨b, name, hline⟩
  obtain ⟨b, a, hline⟩ := hoccurs
  obtain ⟨before, after, hlast⟩ := exists_lastPart hline
  refine ⟨before, after, hlast, ?_⟩
  rw [hindexed, Bool.not_eq_true', ← Bool.not_eq_true, endsInChildrenColon_of_lastPart hends hlast,
    not_or, endsInChildrenColon_iff]

/-- A bracket behind the first of two accessors keeps them apart. -/
theorem indices_behind_indexed_accessor :
    .ordinalAccessor true ∈ positions "children[0]:children" ∧
      ∀ t ∈ indexForms "children[0]:children", t ∈ vocabulary "children[0]:children" := by
  have h : .ordinalAccessor true ∈ positions "children[0]:children" := by decide +kernel
  exact ⟨h, (indices_offered_iff "children[0]:children" true h).1.1 rfl⟩

/-- No colon follows the last of two accessors, and still no index is offered. -/
theorem no_indices_behind_accessor :
    .ordinalAccessor false ∈ positions "children:children" ∧
      LastPart "children" "children:children" "children:" [] ∧ ':' ∉ ([] : Text) ∧
      ∀ t ∈ indexForms "children:children", t ∉ vocabulary "children:children" := by
  have hnot : .ordinalAccessor true ∉ positions "children:children" := by decide +kernel
  refine ⟨by decide +kernel, ⟨by decide, fun b a h => ?_⟩, List.not_mem_nil,
    fun t hindex hword => ?_⟩
  · have hlen := congrArg List.length h
    have hparts : "children:children".toList.length = 17 ∧ "children".toList.length = 8 ∧
        "children:".toList.length = 9 := by decide
    rw [List.length_append, List.length_append] at hlen
    omega
  · exact getLast?_of_mem_vocabulary hnot hword (getLast?_of_mem_indexForms hindex)

end Query
end ManifestShell
