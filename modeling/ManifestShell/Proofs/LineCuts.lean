import Mathlib.Order.Bounds.Basic
import ManifestShell.Proofs.Replacement

/-! Two ways of cutting a line.
Completion cuts a line at all its colons and sets the last piece apart; accepting a candidate looks
for the last colon and cuts at its byte offset.  Both cut at the same place, whatever characters
stand around it and wherever colons lead, trail or repeat. -/
namespace ManifestShell

namespace Text

def offsets (c : Char) (t : Text) : Set Nat :=
  {n | ∃ before after, cutAtByte? n t = some (before, c :: after)}

theorem mem_offsets_iff {c : Char} {t : Text} {n : Nat} :
    n ∈ offsets c t ↔ ∃ before after, t = before ++ c :: after ∧ byteSize before = n := by
  constructor
  · rintro ⟨before, after, h⟩
    exact ⟨before, after, cutAtByte?_eq_some h⟩
  · rintro ⟨before, after, rfl, rfl⟩
    exact ⟨before, after, cutAtByte?_byteSize before (c :: after)⟩

theorem isGreatest_offsets {c : Char} {after : Text} (before : Text) (h : c ∉ after) :
    IsGreatest (offsets c (before ++ c :: after)) (byteSize before) := by
  refine ⟨mem_offsets_iff.2 ⟨before, after, rfl, rfl⟩, fun n hn => ?_⟩
  obtain ⟨start, rest, heq, rfl⟩ := mem_offsets_iff.1 hn
  rcases List.append_eq_append_iff.1 heq with ⟨more, rfl, hmore⟩ | ⟨more, rfl, _⟩
  · -- a later occurrence would lie in the part behind this one
    cases more with
    | nil => simp
    | cons d more =>
      obtain ⟨_, rfl⟩ := List.cons_eq_cons.1 hmore
      simp at h
  · rw [byteSize_append]
    exact Nat.le_add_right _ _

/-- The cut at the last separator is the cut at the greatest of its byte offsets. -/
theorem splitLast?_eq_some_iff {sep : Char} {t before after : Text} :
    splitLast? sep t = some (before, after) ↔
      ∃ n, IsGreatest (offsets sep t) n ∧ cutAtByte? n t = some (before, sep :: after) := by
  constructor
  · intro h
    obtain ⟨rfl, hafter⟩ := splitLast?_eq_some h
    exact ⟨byteSize before, isGreatest_offsets before hafter, cutAtByte?_byteSize _ _⟩
  · rintro ⟨n, hn, hcut⟩
    rcases notMem_or_exists_last sep t with h | ⟨start, rest, rfl, h⟩
    · rw [(cutAtByte?_eq_some hcut).1] at h
      simp at h
    · obtain rfl := hn.unique (isGreatest_offsets start h)
      obtain ⟨rfl, hrest⟩ : start = before ∧ sep :: rest = sep :: after := by
        simpa [cutAtByte?_byteSize] using hcut
      rw [splitLast?_append_cons start h, List.tail_eq_of_cons_eq hrest]

end Text

namespace Query

theorem join_concat {segments : List Text} (h : segments ≠ []) (segment : Text) :
    join (segments ++ [segment]) = join segments ++ ':' :: segment := by
  induction segments with
  | nil => exact absurd rfl h
  | cons first segments ih =>
    unfold join at ih ⊢
    by_cases hs : segments = []
    · simp [hs]
    · rw [List.cons_append, List.intercalate_cons_of_ne_nil (by simp), ih hs,
        List.intercalate_cons_of_ne_nil hs]
      simp

theorem join_committed_concat_active (line : Text) :
    join (committed line ++ [active line]) = line := by
  rw [committed_append_active, join, Text.intercalate_splitOn]

theorem notMem_active (line : Text) : ':' ∉ active line := (isActive_iff.2 rfl).1

theorem committed_eq_nil_iff {line : Text} : committed line = [] ↔ ':' ∉ line := by
  refine ⟨fun h => ?_, committed_of_notMem⟩
  have hline : join [active line] = line := by simpa [h] using join_committed_concat_active line
  rw [← hline, join, List.intercalate_singleton]
  exact notMem_active line

theorem join_committed_concat {line : Text} (h : ':' ∈ line) (segment : Text) :
    join (committed line ++ [segment]) = join (committed line) ++ ':' :: segment :=
  join_concat (fun hnil => committed_eq_nil_iff.1 hnil h) segment

theorem splitLast?_colon {line : Text} (h : ':' ∈ line) :
    Text.splitLast? ':' line = some (join (committed line), active line) := by
  calc Text.splitLast? ':' line
      = Text.splitLast? ':' (join (committed line) ++ ':' :: active line) := by
        rw [← join_committed_concat h, join_committed_concat_active]
    _ = some (join (committed line), active line) :=
        Text.splitLast?_append_cons _ (notMem_active line)

theorem replacement_eq_join {line candidate : Text} (h : ':' ∈ line) (hc : ¬ line <+: candidate) :
    replacement line candidate = join (committed line ++ [withoutColon candidate]) := by
  rw [join_committed_concat h]
  simp [replacement, hc, splitLast?_colon h, withoutColon]

/-- The segments of a line give it back and hold no colons, and there are committed ones exactly if
the line has a colon.  Then the part before its last colon is the committed segments, the part
behind it is the active one, and a candidate takes the place of the latter. -/
theorem line_cuts_agree (line : Text) :
    join (committed line ++ [active line]) = line ∧
    (∀ piece ∈ committed line ++ [active line], ':' ∉ piece) ∧
    (committed line = [] ↔ ':' ∉ line) ∧
    (Text.splitLast? ':' line = none ↔ ':' ∉ line) ∧
    (':' ∈ line →
      Text.splitLast? ':' line = some (join (committed line), active line) ∧
      (∃ last, IsGreatest (Text.offsets ':' line) last ∧
        Text.cutAtByte? last line = some (join (committed line), ':' :: active line)) ∧
      ∀ candidate, ¬ line <+: candidate →
        replacement line candidate = join (committed line ++ [withoutColon candidate])) := by
  refine ⟨join_committed_concat_active line, fun piece hpiece => ?_, committed_eq_nil_iff,
    Text.splitLast?_eq_none_iff, fun hcolon => ?_⟩
  · rw [committed_append_active] at hpiece
    exact Text.notMem_of_mem_splitOn hpiece
  · have hsplit := splitLast?_colon hcolon
    exact ⟨hsplit, Text.splitLast?_eq_some_iff.1 hsplit, fun _ => replacement_eq_join hcolon⟩

/-- A line that begins and ends with colons, with a wide character between them. -/
theorem line_cuts_agree_around_wide_character :
    let line : Text := ":é::"
    ':' ∈ line ∧ ¬ line <+: ":text".toList ∧ [] ∈ committed line ++ [active line] ∧
      ':' ∉ ([] : Text) ∧ Text.splitLast? ':' line = some (":é:".toList, []) ∧
      (∃ last, IsGreatest (Text.offsets ':' line) last ∧
        Text.cutAtByte? last line = some (":é:".toList, [':'])) ∧
      replacement line ":text" = ":é::text" := by
  intro line
  have hcolon : ':' ∈ line := by decide +kernel
  have hnot : ¬ line <+: ":text".toList := by decide +kernel
  have hpiece : [] ∈ committed line ++ [active line] := by decide +kernel
  have hcommitted : join (committed line) = ":é:".toList := by decide +kernel
  have hactive : active line = [] := by decide +kernel
  have hnew : join (committed line ++ [withoutColon ":text"]) = ":é::text".toList := by
    decide +kernel
  obtain ⟨_, hpieces, _, _, hcut⟩ := line_cuts_agree line
  obtain ⟨hsplit, hlast, hreplace⟩ := hcut hcolon
  rw [hcommitted, hactive] at hsplit hlast
  exact ⟨hcolon, hnot, hpiece, hpieces _ hpiece, hsplit, hlast, (hreplace _ hnot).trans hnew⟩

end Query
end ManifestShell
