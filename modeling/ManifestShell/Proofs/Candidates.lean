import Mathlib.Data.List.Sort
import ManifestShell.Completion.Engine
import ManifestShell.Files
import ManifestShell.Proofs.Segments
import ManifestShell.Proofs.Tables

/-! Which candidates the engine shows.
The candidates shown for a line are determined by the set of texts that its sources contribute: they
are the members of that set that fit the active segment, or all of it, in ascending order.  Neither
the order of the sources nor repetitions nor sources that fail have any influence. -/
namespace ManifestShell

theorem fits_iff {a t : Text} : fits a t = true ↔ a <+: t ∨ (':' :: a) <+: t := by
  rw [fits, Bool.or_eq_true, Text.startsWith_iff, Text.startsWith_iff]

theorem rank_of_fitting {a : Text} {cs : List Text} (all : Bool) (h : cs.filter (fits a) ≠ []) :
    rank a all cs = Text.ascending (cs.filter (fits a)) := by
  simp [rank, h]

theorem rank_of_none {a : Text} {cs : List Text} (all : Bool) (h : cs.filter (fits a) = []) :
    rank a all cs = if all then Text.ascending cs else [] := by
  simp [rank, h]

theorem pairwise_rank (a : Text) (all : Bool) (cs : List Text) :
    (rank a all cs).Pairwise (· < ·) := by
  by_cases h : cs.filter (fits a) = []
  · rw [rank_of_none all h]
    cases all
    · exact List.Pairwise.nil
    · exact Text.pairwise_ascending cs
  · rw [rank_of_fitting all h]
    exact Text.pairwise_ascending _

theorem mem_rank {a : Text} {all : Bool} {cs : List Text} {t : Text} :
    t ∈ rank a all cs ↔
      (t ∈ cs ∧ fits a t) ∨ ((∀ m ∈ cs, ¬ fits a m) ∧ all = true ∧ t ∈ cs) := by
  by_cases h : cs.filter (fits a) = []
  · have hnone : ∀ m ∈ cs, ¬ fits a m := List.filter_eq_nil_iff.1 h
    have hno : ¬ (t ∈ cs ∧ fits a t) := fun ht => hnone t ht.1 ht.2
    rw [rank_of_none all h]
    cases all with
    | false => simp [hno]
    | true =>
      simp only [if_true, Text.mem_ascending, hno, false_or, true_and]
      exact (and_iff_right hnone).symm
  · have hsome : ¬ ∀ m ∈ cs, ¬ fits a m := fun hn => h (List.filter_eq_nil_iff.2 hn)
    rw [rank_of_fitting all h, Text.mem_ascending, List.mem_filter]
    simp only [hsome, false_and, or_false]

/-- What one source adds to the reports. -/
def Source.report? (s : Source) (line : Text) (c : Context) : Option Report :=
  match s.offer line c with
  | .answer cs => some ⟨s.name, .ok cs⟩
  | .failure err => some ⟨s.name, .error err⟩
  | .breakdown => none

theorem Source.report?_eq_none_iff {s : Source} {line : Text} {c : Context} :
    s.report? line c = none ↔ s.offer line c = .breakdown := by
  unfold report?
  cases s.offer line c <;> simp

theorem Source.mem_candidates_report {s : Source} {line t : Text} {c : Context} {r : Report}
    (h : s.report? line c = some r) :
    t ∈ r.candidates ↔ ∃ cs, s.offer line c = .answer cs ∧ t ∈ cs := by
  unfold report? at h
  cases ho : s.offer line c with
  | answer cs =>
    obtain rfl : (⟨s.name, .ok cs⟩ : Report) = r := by simpa [ho] using h
    simp [Report.candidates]
  | failure err =>
    obtain rfl : (⟨s.name, .error err⟩ : Report) = r := by simpa [ho] using h
    simp [Report.candidates]
  | breakdown => simp [ho] at h

namespace Engine

def BreaksDown (e : Engine) (line : Text) (c : Context) : Prop :=
  ∃ s ∈ e.sources, s.offer line c = .breakdown

def Contributes (e : Engine) (line : Text) (c : Context) (t : Text) : Prop :=
  ∃ s ∈ e.sources, ∃ cs, s.offer line c = .answer cs ∧ t ∈ cs

/-- A contributed candidate that begins with the active segment or with a colon and it. -/
def Fitting (e : Engine) (line : Text) (c : Context) (t : Text) : Prop :=
  e.Contributes line c t ∧ (Query.active line <+: t ∨ (':' :: Query.active line) <+: t)

/-- The fitting candidates, or all that are contributed if none fits and that is wanted. -/
def Shown (e : Engine) (line : Text) (c : Context) (t : Text) : Prop :=
  e.Fitting line c t ∨
    ((∀ m, ¬ e.Fitting line c m) ∧ e.fallbackToAll = true ∧ e.Contributes line c t)

variable {e : Engine} {line : Text} {c : Context}

theorem mapM_report?_eq_none_iff (ss : List Source) :
    (ss.mapM fun s => s.report? line c) = none ↔ ∃ s ∈ ss, s.offer line c = .breakdown := by
  induction ss with
  | nil => simp
  | cons s ss ih =>
    rw [List.mapM_cons]
    cases hs : s.report? line c with
    | none => simp [Source.report?_eq_none_iff.1 hs]
    | some r =>
      have hr : s.offer line c ≠ .breakdown := fun h => by
        simp [Source.report?_eq_none_iff.2 h] at hs
      cases hss : ss.mapM fun s => s.report? line c with
      | none => simpa [hr] using ih.1 hss
      | some rs => simpa [hr, hss] using ih

theorem mem_flatMap_of_mapM {ss : List Source} {rs : List Report} {t : Text}
    (h : (ss.mapM fun s => s.report? line c) = some rs) :
    t ∈ rs.flatMap Report.candidates ↔
      ∃ s ∈ ss, ∃ cs, s.offer line c = .answer cs ∧ t ∈ cs := by
  induction ss generalizing rs with
  | nil =>
    obtain rfl : [] = rs := by simpa using h
    simp
  | cons s ss ih =>
    rw [List.mapM_cons] at h
    obtain ⟨r, hr, h⟩ := Option.bind_eq_some_iff.1 h
    obtain ⟨rs', hrs, h⟩ := Option.bind_eq_some_iff.1 h
    obtain rfl : r :: rs' = rs := by simpa using h
    rw [List.flatMap_cons, List.mem_append, ih hrs, Source.mem_candidates_report hr]
    simp

theorem candidates_of_breaksDown (h : e.BreaksDown line c) : e.candidates line c = [] := by
  have hnone : e.collect line c = none := (mapM_report?_eq_none_iff e.sources).2 h
  simp [candidates, hnone]

theorem exists_collect (h : ¬ e.BreaksDown line c) : ∃ rs, e.collect line c = some rs :=
  Option.ne_none_iff_exists'.1 fun hnone => h ((mapM_report?_eq_none_iff e.sources).1 hnone)

theorem candidates_eq_rank {rs : List Report} (h : e.collect line c = some rs) :
    e.candidates line c =
      rank (Query.active line) e.fallbackToAll (rs.flatMap Report.candidates) := by
  simp [candidates, h]

/-- In every case the candidates are in strictly ascending order, so each is shown once. -/
theorem pairwise_candidates (e : Engine) (line : Text) (c : Context) :
    (e.candidates line c).Pairwise (· < ·) := by
  by_cases h : e.BreaksDown line c
  · rw [candidates_of_breaksDown h]
    exact List.Pairwise.nil
  · obtain ⟨rs, hrs⟩ := exists_collect h
    rw [candidates_eq_rank hrs]
    exact pairwise_rank _ _ _

theorem mem_candidates {t : Text} (h : ¬ e.BreaksDown line c) :
    t ∈ e.candidates line c ↔ e.Shown line c t := by
  obtain ⟨rs, hrs⟩ := exists_collect h
  have hmem (u : Text) : u ∈ rs.flatMap Report.candidates ↔ e.Contributes line c u :=
    mem_flatMap_of_mapM hrs
  rw [candidates_eq_rank hrs, mem_rank]
  simp only [hmem, fits_iff, Shown, Fitting, not_and]

/-- A list in strictly ascending order is determined by its members. -/
theorem eq_of_pairwise_bytes {l l' : List Text}
    (h : l.Pairwise fun s t => Text.bytes s < Text.bytes t) (h' : l'.Pairwise (· < ·))
    (hmem : ∀ t, t ∈ l ↔ t ∈ l') : l = l' := by
  have hl : l.Pairwise (· < ·) := h.imp Text.bytes_lt_bytes_iff.1
  have : Std.Irrefl (· < · : Text → Text → Prop) := ⟨fun t => List.lt_irrefl t⟩
  exact List.Pairwise.eq_of_mem_iff hl h' hmem

theorem complete_congr {e' : Engine} {c' : Context} (hall : e'.fallbackToAll = e.fallbackToAll)
    (hdown : e'.BreaksDown line c' ↔ e.BreaksDown line c)
    (hmem : ∀ t, e'.Contributes line c' t ↔ e.Contributes line c t) :
    e'.complete line c' = e.complete line c := by
  refine Prod.ext ?_ rfl
  change e'.candidates line c' = e.candidates line c
  by_cases h : e.BreaksDown line c
  · rw [candidates_of_breaksDown h, candidates_of_breaksDown (hdown.2 h)]
  · have h' : ¬ e'.BreaksDown line c' := fun hd => h (hdown.1 hd)
    refine eq_of_pairwise_bytes ((pairwise_candidates e' line c').imp Text.bytes_lt_bytes)
      (pairwise_candidates e line c) fun t => ?_
    rw [mem_candidates h, mem_candidates h']
    simp only [Shown, Fitting, hmem, hall]

/-- The same sources, in whatever order and however often, show the same candidates. -/
theorem complete_of_mem_iff {e' : Engine} (hall : e'.fallbackToAll = e.fallbackToAll)
    (hmem : ∀ s, s ∈ e'.sources ↔ s ∈ e.sources) : e'.complete line c = e.complete line c := by
  apply complete_congr hall
  · simp only [BreaksDown, hmem]
  · intro t
    simp only [Contributes, hmem]

theorem complete_drop_failure {before after : List Source} {s : Source} {err : SourceError}
    (hs : e.sources = before ++ s :: after) (hf : s.offer line c = .failure err) :
    { e with sources := before ++ after }.complete line c = e.complete line c := by
  refine complete_congr (by rfl) ?_ fun t => ?_
  · simp [BreaksDown, hs, hf, or_and_right, exists_or]
  · simp [Contributes, hs, hf, or_and_right, exists_or]

/-- What completion returns, and what it does not depend on. -/
theorem complete_characterization (e : Engine) (line : Text) (c : Context) :
    (∀ a, Query.IsActive line a ↔ a = Query.active line) ∧
    (¬ e.BreaksDown line c →
      (e.complete line c).2 = line ∧
      ∀ l, l = (e.complete line c).1 ↔
        (l.Pairwise fun s t => Text.bytes s < Text.bytes t) ∧ ∀ t, t ∈ l ↔ e.Shown line c t) ∧
    (e.BreaksDown line c → e.complete line c = ([], line)) ∧
    (∀ ss, ss.Perm e.sources →
      { e with sources := ss }.complete line c = e.complete line c) ∧
    (∀ s ∈ e.sources, ∀ before after, e.sources = before ++ after →
      { e with sources := before ++ s :: after }.complete line c = e.complete line c) ∧
    (∀ before s after err, e.sources = before ++ s :: after → s.offer line c = .failure err →
      { e with sources := before ++ after }.complete line c = e.complete line c) := by
  refine ⟨fun a => Query.isActive_iff, fun h => ⟨rfl, fun l => ⟨?_, ?_⟩⟩, fun h => ?_, ?_, ?_, ?_⟩
  · rintro rfl
    exact ⟨(pairwise_candidates e line c).imp Text.bytes_lt_bytes, fun t => mem_candidates h⟩
  · rintro ⟨hasc, hmem⟩
    exact eq_of_pairwise_bytes hasc (pairwise_candidates e line c) fun t =>
      (hmem t).trans (mem_candidates h).symm
  · rw [complete, candidates_of_breaksDown h]
  · intro ss hp
    exact complete_of_mem_iff rfl fun s => hp.mem_iff
  · intro s hs before after heq
    refine complete_of_mem_iff rfl fun u => ?_
    rw [heq] at hs ⊢
    simp only [List.mem_append, List.mem_cons] at hs ⊢
    constructor
    · rintro (h | rfl | h)
      · exact Or.inl h
      · exact hs
      · exact Or.inr h
    · rintro (h | h)
      · exact Or.inl h
      · exact Or.inr (Or.inr h)
  · intro before s after err hs hf
    exact complete_drop_failure hs hf

/-- Two sources of which the first fails: what the second one contributes is shown in order. -/
theorem complete_beside_failing_source :
    let e : Engine :=
      ⟨[⟨"broken", fun _ _ => .failure (.document "unreadable")⟩, Source.contextual], true⟩
    let c : Context := ⟨Table.empty, Table.empty, none, Listing.empty.fileSystem⟩
    ¬ e.BreaksDown "**" c ∧ (e.complete "**" c).2 = "**" ∧
      ∀ t, t ∈ ["**[is node]".toList, "**[is not empty]".toList, "**[is text]".toList] ↔
        e.Shown "**" c t := by
  intro e c
  have hdown : ¬ e.BreaksDown "**" c := by
    rintro ⟨s, hs, hb⟩
    rcases List.mem_pair.1 hs with rfl | rfl <;> cases hb
  obtain ⟨hline, hlist⟩ := (complete_characterization e "**" c).2.1 hdown
  exact ⟨hdown, hline, ((hlist _).1 (by decide +kernel)).2⟩

end Engine
end ManifestShell
