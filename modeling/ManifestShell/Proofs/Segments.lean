import Mathlib.Data.List.Basic
import Mathlib.Data.List.Infix
import ManifestShell.Query

/-! Where a line is cut.
The pieces of a text between separators, the cut at the last separator, and the active and committed
segments of a line are three views of the same place: what stands around the last separator. -/
namespace ManifestShell

namespace Text

/-- Cutting a text is cutting a list, so the library's lemmas on the latter apply. -/
theorem splitOn_eq (sep : Char) (t : Text) : splitOn sep t = List.splitOn sep t := by
  induction t with
  | nil => simp [splitOn]
  | cons c t ih =>
    rw [List.splitOn_cons_eq_if_modifyHead, splitOn, ih]
    by_cases h : c = sep
    · simp [h]
    · cases hs : List.splitOn sep t with
      | nil => exact absurd hs (List.splitOn_ne_nil sep t)
      | cons p ps => simp [h]

theorem splitOn_of_notMem {sep : Char} {t : Text} (h : sep ∉ t) : splitOn sep t = [t] := by
  rw [splitOn_eq, List.splitOn_eq_singleton h]

theorem splitOn_append_cons (sep : Char) (s t : Text) :
    splitOn sep (s ++ sep :: t) = splitOn sep s ++ splitOn sep t := by
  simp only [splitOn_eq, List.splitOn_append_cons_self]

theorem intercalate_splitOn (sep : Char) (t : Text) : [sep].intercalate (splitOn sep t) = t := by
  rw [splitOn_eq, List.intercalate_splitOn]

theorem splitLast?_eq_none_iff {sep : Char} {t : Text} : splitLast? sep t = none ↔ sep ∉ t := by
  induction t with
  | nil => simp [splitLast?]
  | cons c t ih =>
    unfold splitLast?
    cases hs : splitLast? sep t with
    | some q =>
      have hmem : sep ∈ t := by
        by_contra hn
        simp [ih.2 hn] at hs
      simp [hmem]
    | none =>
      have hmem : sep ∉ t := ih.1 hs
      by_cases hc : c = sep
      · simp [hc]
      · simp [hc, hmem, Ne.symm hc]

theorem splitLast?_append_cons {sep : Char} {after : Text} (before : Text) (h : sep ∉ after) :
    splitLast? sep (before ++ sep :: after) = some (before, after) := by
  induction before with
  | nil => simp [splitLast?, splitLast?_eq_none_iff.2 h]
  | cons c before ih => simp [splitLast?, ih]

theorem splitLast?_eq_some {sep : Char} {t before after : Text}
    (h : splitLast? sep t = some (before, after)) : t = before ++ sep :: after ∧ sep ∉ after := by
  induction t generalizing before with
  | nil => simp [splitLast?] at h
  | cons c t ih =>
    unfold splitLast? at h
    cases hs : splitLast? sep t with
    | some q =>
      simp only [hs, Option.some.injEq, Prod.mk.injEq] at h
      obtain ⟨rfl, rfl⟩ := h
      obtain ⟨ht, hn⟩ := ih hs
      exact ⟨by rw [List.cons_append, ← ht], hn⟩
    | none =>
      simp only [hs] at h
      split at h
      · rename_i hc
        simp only [Option.some.injEq, Prod.mk.injEq] at h
        obtain ⟨rfl, rfl⟩ := h
        exact ⟨by simp [hc], splitLast?_eq_none_iff.1 hs⟩
      · simp at h

/-- Every text either has no separator or can be cut at its last one. -/
theorem notMem_or_exists_last (sep : Char) (t : Text) :
    sep ∉ t ∨ ∃ before after, t = before ++ sep :: after ∧ sep ∉ after := by
  cases hs : splitLast? sep t with
  | none => exact Or.inl (splitLast?_eq_none_iff.1 hs)
  | some q => exact Or.inr ⟨q.1, q.2, splitLast?_eq_some hs⟩

/-- Induction on the number of separators, from the last one on. -/
@[elab_as_elim]
theorem cutInduction {motive : Text → Prop} (sep : Char) (piece : ∀ t, sep ∉ t → motive t)
    (cut : ∀ before after, sep ∉ after → motive before → motive (before ++ sep :: after))
    (t : Text) : motive t := by
  induction hn : t.length using Nat.strongRecOn generalizing t with
  | ind n ih =>
    rcases notMem_or_exists_last sep t with h | ⟨before, after, rfl, h⟩
    · exact piece t h
    · have hlt : before.length < n := by
        rw [← hn, List.length_append, List.length_cons]
        omega
      exact cut before after h (ih _ hlt before rfl)

theorem notMem_of_mem_splitOn {sep : Char} {t p : Text} (h : p ∈ splitOn sep t) : sep ∉ p := by
  induction t using cutInduction sep with
  | piece t ht =>
    rw [splitOn_of_notMem ht, List.mem_singleton] at h
    exact h ▸ ht
  | cut before after hafter ih =>
    rw [splitOn_append_cons, splitOn_of_notMem hafter, List.mem_append, List.mem_singleton] at h
    rcases h with h | rfl
    · exact ih h
    · exact hafter

theorem mem_of_mem_splitOn {sep c : Char} {t p : Text} (hp : p ∈ splitOn sep t) (hc : c ∈ p) :
    c ∈ t := by
  induction t using cutInduction sep with
  | piece t ht =>
    rw [splitOn_of_notMem ht, List.mem_singleton] at hp
    exact hp ▸ hc
  | cut before after hafter ih =>
    rw [splitOn_append_cons, splitOn_of_notMem hafter, List.mem_append, List.mem_singleton] at hp
    rcases hp with hp | rfl
    · exact List.mem_append_left _ (ih hp)
    · exact List.mem_append_right _ (List.mem_cons_of_mem _ hc)

theorem length_splitOn (sep : Char) (t : Text) : (splitOn sep t).length = t.count sep + 1 := by
  induction t using cutInduction sep with
  | piece t ht => rw [splitOn_of_notMem ht, List.count_eq_zero.2 ht, List.length_singleton]
  | cut before after hafter ih =>
    rw [splitOn_append_cons, splitOn_of_notMem hafter, List.length_append, ih, List.count_append,
      List.count_cons_self, List.count_eq_zero.2 hafter, List.length_singleton]

/-- What stands in front of the last piece: each piece before it with a separator behind it. -/
def leadOf (sep : Char) (pieces : List Text) : Text := pieces.flatMap (· ++ [sep])

@[simp] theorem leadOf_nil (sep : Char) : leadOf sep [] = [] := rfl

@[simp] theorem leadOf_cons (sep : Char) (piece : Text) (pieces : List Text) :
    leadOf sep (piece :: pieces) = piece ++ sep :: leadOf sep pieces := by
  simp [leadOf]

theorem splitOn_leadOf_append {sep : Char} {pieces : List Text} (h : ∀ p ∈ pieces, sep ∉ p)
    (t : Text) : splitOn sep (leadOf sep pieces ++ t) = pieces ++ splitOn sep t := by
  induction pieces with
  | nil => rfl
  | cons piece pieces ih =>
    obtain ⟨hpiece, hpieces⟩ := List.forall_mem_cons.1 h
    rw [leadOf_cons, List.append_assoc, List.cons_append, splitOn_append_cons,
      splitOn_of_notMem hpiece, ih hpieces]
    rfl

theorem exists_leadOf (sep : Char) (t : Text) :
    ∃ pieces last, (∀ p ∈ pieces, sep ∉ p) ∧ sep ∉ last ∧ t = leadOf sep pieces ++ last := by
  induction t using cutInduction sep with
  | piece t ht => exact ⟨[], t, by simp, ht, rfl⟩
  | cut before after hafter ih =>
    obtain ⟨pieces, last, hpieces, hlast, rfl⟩ := ih
    refine ⟨pieces ++ [last], after, ?_, hafter, by simp [leadOf]⟩
    simpa [or_imp, forall_and] using ⟨hpieces, hlast⟩

theorem leadOf_splitOn (sep : Char) (t : Text) : leadOf sep (splitOn sep t) = t ++ [sep] := by
  induction t using cutInduction sep with
  | piece t ht => simp [splitOn_of_notMem ht]
  | cut before after hafter ih =>
    rw [splitOn_append_cons, splitOn_of_notMem hafter]
    simp only [leadOf, List.flatMap_append] at ih ⊢
    rw [ih]
    simp

@[simp] theorem startsWith_iff {start t : Text} : startsWith start t = true ↔ start <+: t :=
  List.isPrefixOf_iff_prefix

theorem dropStart?_eq_some_iff {start t rest : Text} :
    dropStart? start t = some rest ↔ t = start ++ rest := by
  rw [dropStart?, List.isPrefixOf?_eq_some_iff_append_eq]
  exact eq_comm

theorem takeWhile_append_of_stop {p : Char → Bool} {s t : Text} (hs : ∀ c ∈ s, p c = true)
    (ht : ∀ c, t.head? = some c → p c = false) : (s ++ t).takeWhile p = s := by
  rw [List.takeWhile_append_of_pos hs]
  cases t with
  | nil => simp
  | cons c t => simp [ht c rfl]

theorem dropWhile_append_of_stop {p : Char → Bool} {s t : Text} (hs : ∀ c ∈ s, p c = true)
    (ht : ∀ c, t.head? = some c → p c = false) : (s ++ t).dropWhile p = t := by
  rw [List.dropWhile_append_of_pos hs]
  cases t with
  | nil => rfl
  | cons c t => simp [ht c rfl]

theorem mem_tails {a t : Text} : a ∈ tails t ↔ a <:+ t := by
  induction t with
  | nil => simp [tails]
  | cons c t ih => rw [tails, List.mem_cons, ih, List.suffix_cons_iff]

theorem isPrefix_of_notMem {needle a b : Text} {c : Char} (h : c ∉ needle)
    (hp : needle <+: a ++ c :: b) : needle <+: a := by
  rcases List.prefix_or_prefix_of_prefix hp (List.prefix_append a (c :: b)) with
    hshort | ⟨rest, rfl⟩
  · exact hshort
  · have hrest : rest <+: c :: b := (List.prefix_append_right_inj a).1 hp
    cases rest with
    | nil => simp
    | cons d rest =>
      obtain ⟨rfl, _⟩ := List.cons_prefix_cons.1 hrest
      simp at h

/-- A part without a given character lies on one side of it. -/
theorem isInfix_append_cons {needle a b : Text} {c : Char} (h : c ∉ needle)
    (hi : needle <:+: a ++ c :: b) : needle <:+: a ∨ needle <:+: b := by
  induction a with
  | nil =>
    rcases List.infix_cons_iff.1 hi with hp | hi
    · exact Or.inl (isPrefix_of_notMem (a := []) h hp).isInfix
    · exact Or.inr hi
  | cons d a ih =>
    rcases List.infix_cons_iff.1 hi with hp | hi
    · exact Or.inl (isPrefix_of_notMem (a := d :: a) h hp).isInfix
    · exact (ih hi).imp_left fun hi => List.infix_cons_iff.2 (Or.inr hi)

end Text

namespace Query

theorem active_of_notMem {line : Text} (h : ':' ∉ line) : active line = line := by
  simp [active, Text.splitOn_of_notMem h]

theorem active_append_cons {after : Text} (before : Text) (h : ':' ∉ after) :
    active (before ++ ':' :: after) = after := by
  simp [active, Text.splitOn_append_cons, Text.splitOn_of_notMem h]

theorem committed_of_notMem {line : Text} (h : ':' ∉ line) : committed line = [] := by
  simp [committed, Text.splitOn_of_notMem h]

theorem committed_append_cons {after : Text} (before : Text) (h : ':' ∉ after) :
    committed (before ++ ':' :: after) = Text.splitOn ':' before := by
  simp [committed, Text.splitOn_append_cons, Text.splitOn_of_notMem h]

theorem committedText_append_cons {after : Text} (before : Text) (h : ':' ∉ after) :
    committedText (before ++ ':' :: after) = before := by
  rw [committedText, committed_append_cons before h, join, Text.intercalate_splitOn]

/-- `a` is the text after the last colon of a line, or all of a line without colons. -/
def IsActive (line a : Text) : Prop :=
  ':' ∉ a ∧ (a = line ∨ ∃ before, line = before ++ ':' :: a)

theorem isActive_iff {line a : Text} : IsActive line a ↔ a = active line := by
  constructor
  · rintro ⟨ha, rfl | ⟨before, rfl⟩⟩
    · exact (active_of_notMem ha).symm
    · exact (active_append_cons before ha).symm
  · rintro rfl
    rcases Text.notMem_or_exists_last ':' line with h | ⟨before, after, rfl, h⟩
    · rw [active_of_notMem h]
      exact ⟨h, Or.inl rfl⟩
    · rw [active_append_cons before h]
      exact ⟨h, Or.inr ⟨before, rfl⟩⟩

end Query

/-! ### Positions -/

namespace Query

theorem beforeCast_isPrefix (inWord : Bool) (t : Text) : beforeCast inWord t <+: t := by
  induction t generalizing inWord with
  | nil => exact List.prefix_rfl
  | cons c t ih =>
    unfold beforeCast
    split_ifs
    · exact List.nil_prefix
    · exact List.cons_prefix_cons.2 ⟨rfl, ih _⟩

theorem castStem_of_notMem {line : Text} (h : ':' ∉ line) :
    castStem line = beforeCast false line := by
  simp [castStem, committed_of_notMem h, active_of_notMem h]

theorem castStem_append_cons {after : Text} (before : Text) (h : ':' ∉ after) :
    castStem (before ++ ':' :: after) = before ++ ':' :: beforeCast false after := by
  have hne : Text.splitOn ':' before ≠ [] := Text.splitOn_ne_nil ':' before
  simp [castStem, committed_append_cons before h, committedText_append_cons before h,
    active_append_cons before h, hne]

theorem castStem_isPrefix (line : Text) : castStem line <+: line := by
  rcases Text.notMem_or_exists_last ':' line with h | ⟨before, after, rfl, h⟩
  · rw [castStem_of_notMem h]
    exact beforeCast_isPrefix false line
  · rw [castStem_append_cons before h]
    exact (List.prefix_append_right_inj before).2
      (List.cons_prefix_cons.2 ⟨rfl, beforeCast_isPrefix false after⟩)

theorem bracketPredicate_mem_positions {line : Text} :
    Position.bracketPredicate ∈ positions line ↔ inBracketPredicate (active line) = true := by
  simp [positions]

theorem typeCast_mem_positions {line stem : Text} :
    Position.typeCast stem ∈ positions line ↔ allowsCast line = true ∧ stem = castStem line := by
  by_cases h : allowsCast line <;> simp [positions, castStem?, h]

theorem importPath_mem_positions {line before typed after : Text} :
    Position.importPath before typed after ∈ positions line ↔
      importSpan? line = some (before, typed, after) := by
  cases h : importSpan? line with
  | none => simp [positions, h]
  | some q =>
    have hmem : Position.importPath before typed after ∈ positions line ↔
        before = q.1 ∧ typed = q.2.1 ∧ after = q.2.2 := by simp [positions, h]
    rw [hmem, Option.some.injEq, Prod.ext_iff, Prod.ext_iff]
    simp only [eq_comm]

theorem ordinalAccessor_mem_positions {line : Text} {indexed : Bool} :
    Position.ordinalAccessor indexed ∈ positions line ↔
      endsInChildren line = true ∧ indexed = !endsInChildrenColon line := by
  by_cases h : endsInChildren line <;> simp [positions, ordinalIndexed?, h]

end Query

end ManifestShell
