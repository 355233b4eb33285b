import ManifestShell.Proofs.RootPattern
import ManifestShell.Proofs.Routes

/-! Roots without gaps and dots.
Whether it starts at the top or at the working directory, such a root is spelled by the walk as it
is written, but for a separator at its end.  So what a pattern finds below it is what the walk finds
from there. -/
namespace ManifestShell.DiskView

open Disk Glob

variable {d : Disk} {root pattern : Text} {place : List Text}

/-! ### The spelling of the root -/

def rootNames (root : Text) : List Text :=
  if isAbsolute root then (rootParts root).tail else rootParts root

def rootStart (root : Text) : Text := if isAbsolute root then ['/'] else ['.']

def rootPath (root : Text) : Text := spell (rootStart root) (rootNames root)

theorem rootNames_of_isAbsolute (h : isAbsolute root = true) :
    rootParts root = [] :: rootNames root := by
  rw [rootNames, if_pos h]
  exact rootParts_of_isAbsolute h

theorem mem_rootParts_of_mem_rootNames {c : Text} (h : c ∈ rootNames root) :
    c ∈ rootParts root := by
  unfold rootNames at h
  split_ifs at h
  · exact List.mem_of_mem_tail h
  · exact h

theorem walkParts_below_eq (hne : root ≠ []) (hp : pattern ≠ []) :
    walkParts (below root pattern) = (rootNames root).map escape ++ patternParts pattern := by
  cases habs : isAbsolute root with
  | false =>
    rw [walkParts_below hne habs, rootNames, habs]
    rfl
  | true =>
    have hnames : [] :: rootNames root = Text.splitOn '/' (stem root) :=
      (rootNames_of_isAbsolute habs).symm
    rcases stem_cases habs with ⟨_, hs⟩ | ⟨s, hs⟩
    · obtain hnil : rootNames root = [] := by
        rw [hs] at hnames
        exact (List.cons.inj hnames).2
      have hbelow : below root pattern = '/' :: pattern := by rw [below, hs]; rfl
      simp [walkParts, hbelow, isAbsolute, hp, hnil]
    · have hslash : escape ('/' :: s) = '/' :: escape s := rfl
      have hbelow : below root pattern = '/' :: (escape s ++ '/' :: pattern) := by
        rw [below, hs, hslash]
        rfl
      rw [hs, splitOn_cons_separator] at hnames
      have hparts := patternParts_append (escape s) pattern
      rw [splitOn_escape, ← (List.cons.inj hnames).2] at hparts
      simpa [walkParts, hbelow, isAbsolute] using hparts

theorem walkStart_below_eq (hne : root ≠ []) (pattern : Text) :
    walkStart (below root pattern) = rootStart root := by
  rw [walkStart, isAbsolute_below hne, rootStart]

theorem isDot_of_isAbsolute {path : Text} (h : isAbsolute path = true) : isDot path = false := by
  obtain ⟨rest, rfl⟩ := exists_cons_of_isAbsolute h
  rw [← Bool.not_eq_true, isDot_iff, splitOn_cons_separator]
  rintro ⟨_, heq, _⟩
  cases heq

theorem plain_stem (hrel : isAbsolute root = false) (h : ∀ c ∈ rootNames root, Proper c) :
    Plain (stem root) := by
  rw [rootNames, hrel] at h
  refine ⟨fun hhead => ?_, fun hnil => (h [] hnil).ne_nil rfl⟩
  exact (h ['.'] (List.mem_of_mem_head? hhead)).ne_dot rfl

/-- The walk spells the root as it is written, but for a separator at its end. -/
theorem rootPath_eq (h : ∀ c ∈ rootNames root, Proper c) :
    rootPath root = stem root ∧ stem (stem root) = stem root ∨
      root = ['/'] ∧ rootPath root = ['/'] := by
  cases habs : isAbsolute root with
  | false =>
    have hplain := plain_stem habs h
    refine Or.inl ⟨?_, hplain.stem⟩
    rw [rootPath, rootStart, rootNames, habs]
    exact spell_splitOn hplain
  | true =>
    have hlead : stem root ++ ['/'] = '/' :: Text.leadOf '/' (rootNames root) := by
      rw [← Text.leadOf_splitOn, ← rootParts, rootNames_of_isAbsolute habs]
      rfl
    rcases List.eq_nil_or_concat (rootNames root) with hnil | ⟨init, last, hnames⟩
    · refine Or.inr ⟨?_, by rw [rootPath, hnil, rootStart, habs]; rfl⟩
      rcases stem_cases habs with ⟨hroot, _⟩ | ⟨s, hs⟩
      · exact hroot
      · rw [hnil, hs] at hlead
        simp at hlead
    · rw [List.concat_eq_append] at hnames
      rw [hnames] at h hlead
      have hlast : Proper last := h last (by simp)
      have hinit : ∀ c ∈ init, c ≠ [] ∧ '/' ∉ c := fun c hc =>
        have hc := h c (List.mem_append_left _ hc)
        ⟨hc.ne_nil, hc.no_separator⟩
      have hstem : stem root = '/' :: (Text.leadOf '/' init ++ last) := by
        refine (List.append_left_inj ['/']).1 (hlead.trans ?_)
        simp [Text.leadOf]
      have hspell : spell ['/'] (init ++ [last]) = '/' :: (Text.leadOf '/' init ++ last) := by
        rw [spell_append, child_spell (by decide) (by decide) hinit hlast.no_separator]
        rfl
      refine Or.inl ⟨?_, ?_⟩
      · rw [rootPath, rootStart, habs, hnames, hstem]
        exact hspell
      · rw [hstem]
        refine stem_of_getLast? fun hl => hlast.no_separator ?_
        rw [← List.cons_append, List.getLast?_append_of_ne_nil _ hlast.ne_nil] at hl
        exact List.mem_of_getLast? hl

theorem stem_rootPath (h : ∀ c ∈ rootNames root, Proper c) : stem (rootPath root) = stem root := by
  rcases rootPath_eq h with ⟨hpath, hstem⟩ | ⟨hroot, hpath⟩
  · rw [hpath, hstem]
  · rw [hpath, hroot]

theorem byteSize_rootPath_le (h : ∀ c ∈ rootNames root, Proper c) :
    Text.byteSize (rootPath root) ≤ Text.byteSize root := by
  rcases rootPath_eq h with ⟨hpath, _⟩ | ⟨hroot, hpath⟩
  · rw [hpath]
    exact byteSize_stem_le root
  · rw [hpath, hroot]

theorem notMem_of_mem_rootNames {c : Text} (h : c ∈ rootNames root) : '/' ∉ c :=
  notMem_of_mem_rootParts (mem_rootParts_of_mem_rootNames h)

theorem isDot_rootPath (h : ∀ c ∈ rootNames root, Proper c) : isDot (rootPath root) = false := by
  cases habs : isAbsolute root with
  | false =>
    have hplain := plain_stem habs h
    rcases rootPath_eq h with ⟨hpath, _⟩ | ⟨hroot, _⟩
    · rw [hpath]
      exact hplain.isDot
    · rw [hroot] at habs
      cases habs
  | true =>
    refine isDot_of_isAbsolute ?_
    rw [rootPath, isAbsolute_spell fun _ => notMem_of_mem_rootNames, rootStart, habs]
    rfl

/-! ### The walk to the root -/

theorem Leads.spell_rootNames (h : Leads d root place) (hroot : ∀ c ∈ rootNames root, Proper c)
    {way : List Text} (hway : way <+: rootNames root) :
    spell (rootStart root) way ≠ [] ∧ Text.byteSize (spell (rootStart root) way) < 4096 := by
  cases habs : isAbsolute root with
  | false =>
    have hparts : rootNames root = rootParts root := by rw [rootNames, habs]; rfl
    have hb : ¬ Blocked root := fun hblocked => by
      have hmem := (List.dropWhile_suffix _).subset (List.mem_of_mem_head? hblocked)
      exact (hroot [] (hparts ▸ hmem)).ne_nil rfl
    rw [rootStart, habs]
    exact h.spell_way hb (hparts ▸ hway)
  | true =>
    have hstart : rootStart root = ['/'] := by rw [rootStart, habs]; rfl
    obtain ⟨more, hmore⟩ := hway
    have hs : ∀ c ∈ way ++ more, '/' ∉ c := fun c hc => notMem_of_mem_rootNames (hmore ▸ hc)
    have hway : ∀ c ∈ way, '/' ∉ c := fun c hc => hs c (List.mem_append_left _ hc)
    have hne : spell ['/'] way ≠ [] := spell_ne_nil hway (by decide) (by decide)
    have hdot : isDot (spell ['/'] way) = false := by
      refine isDot_of_isAbsolute ?_
      rw [isAbsolute_spell hway]
      rfl
    have hspell : spell (spell ['/'] way) more = rootPath root := by
      rw [rootPath, hstart, ← hmore, spell, spell, spell, List.foldl_append]
    rw [hstart]
    refine ⟨hne, ?_⟩
    calc
      Text.byteSize (spell ['/'] way) ≤ Text.byteSize (spell (spell ['/'] way) more) :=
        byteSize_le_spell hne hdot fun c hc => hs c (List.mem_append_right _ hc)
      _ = Text.byteSize (rootPath root) := by rw [hspell]
      _ ≤ Text.byteSize root := byteSize_rootPath_le hroot
      _ < 4096 := h.short

theorem Leads.at_start (h : Leads d root place) : At d (rootStart root) (d.base root) := by
  cases habs : isAbsolute root with
  | false =>
    rw [rootStart, base, habs]
    exact h.at_dot habs
  | true =>
    rw [rootStart, base, habs]
    exact at_top d

theorem Leads.foldlM_rootNames (h : Leads d root place) :
    (rootNames root).foldlM d.enter (d.base root) = .ok place := by
  have hsteps := h.steps_stem
  cases habs : isAbsolute root with
  | false =>
    rw [rootNames, habs]
    exact hsteps
  | true =>
    have htop : d.node? [] = some (.directory d.top) := rfl
    rw [rootNames_of_isAbsolute habs, List.foldlM_cons, base, habs] at hsteps
    rw [base, habs]
    rwa [if_pos rfl, enter_stay htop (Or.inl rfl)] at hsteps

theorem Leads.walk_root (hd : d.WellFormed) (h : Leads d root place)
    (hroot : ∀ c ∈ rootNames root, Proper c) (rest : List (List Token)) :
    d.walk ((rootNames root).map (List.map exactToken) ++ rest) (rootStart root) =
        d.walk rest (rootPath root) ∧ At d (rootPath root) place := by
  refine walk_exact_parts_eq hd h.at_start (fun t ht => ?_) h.foldlM_rootNames
    fun way => h.spell_rootNames hroot
  have hmem := mem_rootParts_of_mem_rootNames ht
  exact ⟨notMem_of_mem_rootParts hmem, fun hc => h.no_nul (mem_of_mem_rootParts hmem hc)⟩

theorem Leads.glob_eq {ts : List Token} {tokens : List (List Token)} (hd : d.WellFormed)
    (h : Leads d root place) (hroot : ∀ c ∈ rootNames root, Proper c)
    (habs : isAbsolute pattern = false) (hne : pattern ≠ []) (hlast : pattern.getLast? ≠ some '/')
    (hscan : ∀ fresh pos, scan (.between fresh) pos pattern = .ok ts)
    (htokens : (patternParts pattern).mapM Glob.parse = .ok tokens) (limit : Nat) :
    (DiskView.mk d root).glob pattern limit =
      .ok (((d.walk (collapse tokens) (rootPath root)).take limit).map (handOut root)) := by
  have hwhole : ∃ whole, Glob.parse (below root pattern) = .ok whole := by
    refine ⟨_, Eq.trans ?_ (parse_escape_append (stem root ++ ['/']) hscan)⟩
    rw [below, escape_append, List.append_assoc]
    rfl
  have hall : (walkParts (below root pattern)).mapM Glob.parse =
      .ok ((rootNames root).map (List.map exactToken) ++ tokens) := by
    rw [walkParts_below_eq h.ne_nil hne, mapM_parse_escape, htokens]
    rfl
  have hend : (below root pattern).getLast? ≠ some '/' := by
    rwa [below, List.append_cons, List.getLast?_append_of_ne_nil _ hne]
  have hexpand : d.expand (below root pattern) =
      .ok (d.walk (collapse tokens) (rootPath root)) := by
    refine expand_eq_ok_iff.2 ⟨hwhole, _, hall, ?_⟩
    rw [if_neg hend, collapse_exact_parts, walkStart_below_eq h.ne_nil,
      (h.walk_root hd hroot (collapse tokens)).1]
  rw [DiskView.glob_eq d root limit habs, hexpand]

end ManifestShell.DiskView
