import ManifestShell.Proofs.Displacement
import ManifestShell.Proofs.Spelling

/-! What a pattern finds below a root.
The root is escaped and put in front of the pattern, so the walk first follows the components of the
root.  A relative root contributes its spelling, which leads where the root does; everything that is
found goes on from there. -/
namespace ManifestShell.DiskView

open Disk Glob

variable {d : Disk} {root pattern : Text} {place : List Text}

def rootParts (root : Text) : List Text := Text.splitOn '/' (stem root)

theorem notMem_of_mem_rootParts {t : Text} (h : t ∈ rootParts root) : '/' ∉ t :=
  Text.notMem_of_mem_splitOn h

theorem mem_of_mem_rootParts {t : Text} {c : Char} (ht : t ∈ rootParts root) (hc : c ∈ t) :
    c ∈ root := by
  have hstem : c ∈ stem root := Text.mem_of_mem_splitOn ht hc
  rcases eq_stem_or root with ⟨h, _⟩ | h
  · exact h ▸ hstem
  · rw [h]
    exact List.mem_append_left _ hstem

theorem splitOn_cons_separator (s : Text) :
    Text.splitOn '/' ('/' :: s) = [] :: Text.splitOn '/' s :=
  Text.splitOn_append_cons '/' [] s

theorem exists_cons_of_isAbsolute (h : isAbsolute root = true) : ∃ rest, root = '/' :: rest := by
  cases root with
  | nil => simp [isAbsolute] at h
  | cons c rest => exact ⟨rest, by simpa [isAbsolute] using h⟩

theorem stem_cases (h : isAbsolute root = true) :
    root = ['/'] ∧ stem root = [] ∨ ∃ s, stem root = '/' :: s := by
  obtain ⟨rest, rfl⟩ := exists_cons_of_isAbsolute h
  rcases eq_stem_or ('/' :: rest) with ⟨hs, _⟩ | hs
  · exact Or.inr ⟨rest, hs.symm⟩
  · cases hstem : stem ('/' :: rest) with
    | nil => exact Or.inl ⟨by rw [hs, hstem]; rfl, rfl⟩
    | cons c s =>
      rw [hstem, List.cons_append] at hs
      exact Or.inr ⟨s, by rw [(List.cons.inj hs).1]⟩

theorem rootParts_of_isAbsolute (h : isAbsolute root = true) :
    rootParts root = [] :: (rootParts root).tail := by
  rw [rootParts]
  rcases stem_cases h with ⟨_, hs⟩ | ⟨s, hs⟩
  · rw [hs]
    rfl
  · rw [hs, splitOn_cons_separator]
    rfl

theorem rootText_eq (d : Disk) (root : Text) :
    (DiskView.mk d root).rootText = stem root ++ ['/'] := by
  rcases eq_stem_or root with ⟨h, hlast⟩ | h
  · rw [rootText, if_neg hlast, ← h]
  · rw [rootText, if_pos (by rw [h]; simp)]
    exact h

def below (root pattern : Text) : Text := escape (stem root) ++ '/' :: pattern

def handOut (root q : Text) : Text := (Text.dropStart? (stem root ++ ['/']) q).getD q

theorem glob_eq (d : Disk) (root : Text) (limit : Nat) (h : isAbsolute pattern = false) :
    (DiskView.mk d root).glob pattern limit =
      match d.expand (below root pattern) with
      | .error e => .error (.pattern e.message)
      | .ok paths => .ok ((paths.take limit).map (handOut root)) := by
  have hbelow : escape (stem root ++ ['/']) ++ pattern = below root pattern := by
    rw [escape_append, List.append_assoc]
    rfl
  simp only [glob, h, rootText_eq, hbelow, Bool.false_eq_true, if_false]
  rfl

theorem mem_glob {limit : Nat} {hits : List Text} {p : Text} (h : isAbsolute pattern = false)
    (hglob : (DiskView.mk d root).glob pattern limit = .ok hits) (hp : p ∈ hits) :
    ∃ paths q, d.expand (below root pattern) = .ok paths ∧ q ∈ paths ∧ p = handOut root q := by
  rw [glob_eq d root limit h] at hglob
  cases he : d.expand (below root pattern) with
  | error e => simp [he] at hglob
  | ok paths =>
    simp only [he, Except.ok.injEq] at hglob
    subst hglob
    obtain ⟨q, hq, rfl⟩ := List.mem_map.1 hp
    exact ⟨paths, q, rfl, List.mem_of_mem_take hq, rfl⟩

theorem handOut_mem_glob {paths : List Text} {q : Text} (h : isAbsolute pattern = false)
    (he : d.expand (below root pattern) = .ok paths) (hq : q ∈ paths) :
    ∃ limit hits, (DiskView.mk d root).glob pattern limit = .ok hits ∧ handOut root q ∈ hits := by
  refine ⟨paths.length, paths.map (handOut root), ?_, List.mem_map_of_mem hq⟩
  simp only [glob_eq d root _ h, he, List.take_length]

theorem isAbsolute_below (hne : root ≠ []) (pattern : Text) :
    isAbsolute (below root pattern) = isAbsolute root := by
  have hhead (c : Char) (s t : Text) : isAbsolute (escape (c :: s) ++ t) = (c == '/') := by
    by_cases hc : IsWild c
    · have hslash : (c == '/') = false := by rcases hc with rfl | rfl | rfl | rfl <;> rfl
      rw [hslash, escape_cons, escapeChar, if_pos hc]
      rfl
    · rw [escape_cons, escapeChar, if_neg hc]
      rfl
  rw [below]
  cases hs : stem root with
  | nil =>
    rcases eq_stem_or root with ⟨h, _⟩ | h
    · exact absurd (h.trans hs) hne
    · rw [h, hs]
      rfl
  | cons c s =>
    rw [hhead]
    rcases eq_stem_or root with ⟨h, _⟩ | h
    · rw [h, hs]
      rfl
    · rw [h, hs]
      rfl

/-- Either the text of the root was taken off, and joining puts it back, or nothing was. -/
theorem handOut_cases {q : Text} (hne : root ≠ []) (hq : Tidy q) :
    join root (handOut root q) = q ∨ ¬ stem root ++ ['/'] <+: q ∧ handOut root q = q := by
  unfold handOut
  cases h : Text.dropStart? (stem root ++ ['/']) q with
  | none =>
    refine Or.inr ⟨?_, rfl⟩
    rintro ⟨rest, hrest⟩
    rw [Text.dropStart?_eq_some_iff.2 hrest.symm] at h
    simp at h
  | some rest =>
    have hrest := Text.dropStart?_eq_some_iff.1 h
    rw [List.append_assoc] at hrest
    have htidy : Tidy (stem root ++ '/' :: rest) := hrest ▸ hq
    exact Or.inl ((join_eq hne htidy.isAbsolute_rest).trans hrest.symm)

theorem patternParts_append (s pattern : Text) :
    patternParts (s ++ '/' :: pattern) = Text.splitOn '/' s ++ patternParts pattern := by
  have hne := Text.splitOn_ne_nil '/' pattern
  simp only [patternParts, Text.splitOn_append_cons, List.getLast?_append_of_ne_nil _ hne]
  split_ifs with h
  · rw [List.dropLast_append_of_ne_nil hne]
  · rfl

theorem mapM_parse_append {components : List Text} {write : Text → Text}
    {scanned : Text → List Token} (h : ∀ t ∈ components, Glob.parse (write t) = .ok (scanned t))
    (parts : List Text) : (components.map write ++ parts).mapM Glob.parse =
      (components.map scanned ++ ·) <$> parts.mapM Glob.parse := by
  induction components with
  | nil => simp
  | cons t components ih =>
    obtain ⟨ht, hrest⟩ := List.forall_mem_cons.1 h
    rw [List.map_cons, List.cons_append, List.mapM_cons, ht, ih hrest]
    cases parts.mapM Glob.parse <;> rfl

theorem mapM_parse_escape (components parts : List Text) :
    (components.map escape ++ parts).mapM Glob.parse =
      (components.map (List.map exactToken) ++ ·) <$> parts.mapM Glob.parse :=
  mapM_parse_append (fun t _ => parse_escape t) parts

theorem walkParts_below (hne : root ≠ []) (hrel : isAbsolute root = false) (pattern : Text) :
    walkParts (below root pattern) = (rootParts root).map escape ++ patternParts pattern := by
  have hempty : (below root pattern).isEmpty = false := by simp [below]
  simp only [walkParts, isAbsolute_below hne, hrel, hempty, Bool.false_eq_true, if_false]
  rw [below, patternParts_append, splitOn_escape]
  rfl

theorem walkStart_below (hne : root ≠ []) (hrel : isAbsolute root = false) (pattern : Text) :
    walkStart (below root pattern) = ['.'] := by
  simp [walkStart, isAbsolute_below hne, hrel]

/-- A root that is a directory, and where it leads. -/
structure Leads (d : Disk) (root : Text) (place : List Text) : Prop where
  ne_nil : root ≠ []
  no_nul : Char.ofNat 0 ∉ root
  short : Text.byteSize root < 4096
  follow : d.follow root = .ok place
  directory : ∃ es, d.node? place = some (.directory es)

theorem isDirectory_iff_leads : d.isDirectory root = true ↔ ∃ place, Leads d root place := by
  rw [isDirectory_iff]
  constructor
  · rintro ⟨hne, hnul, hsize, place, es, hf, hes⟩
    exact ⟨place, hne, hnul, hsize, hf, es, hes⟩
  · rintro ⟨place, hne, hnul, hsize, hf, es, hes⟩
    exact ⟨hne, hnul, hsize, place, es, hf, hes⟩

theorem steps_stem_iff {base : List Text} (h : ∃ es, d.node? place = some (.directory es))
    (path : Text) : d.steps base (stem path) = .ok place ↔ d.steps base path = .ok place := by
  rcases eq_stem_or path with ⟨hp, _⟩ | hp
  · rw [← hp]
  · nth_rewrite 2 [hp]
    rw [steps_append_cons]
    cases hs : d.steps base (stem path) with
    | error e => simp [bind, Except.bind]
    | ok next =>
      have hnext : d.steps next [] = d.enter next [] := steps_of_notMem List.not_mem_nil next
      change _ ↔ d.steps next [] = _
      rw [hnext]
      constructor
      · intro hok
        obtain ⟨es, hes⟩ := h
        rw [Except.ok.inj hok]
        exact enter_stay hes (Or.inl rfl)
      · intro henter
        rw [move_of_enter henter, move_stay (Or.inl rfl)]

theorem Leads.steps_stem (h : Leads d root place) :
    (rootParts root).foldlM d.enter (d.base root) = .ok place :=
  (steps_stem_iff h.directory root).2 h.follow

theorem Leads.follow_join (h : Leads d root place) {path : Text} (hp : isAbsolute path = false) :
    d.follow (join root path) = d.steps place path := by
  have hbase : d.base (join root path) = d.base root := by simp [base, isAbsolute_join hp]
  rw [Disk.follow, hbase, join_eq h.ne_nil hp, steps_append_cons]
  change ((rootParts root).foldlM d.enter (d.base root) >>= _) = _
  rw [h.steps_stem]
  rfl

theorem Leads.foldlM (h : Leads d root place) (hrel : isAbsolute root = false) :
    (rootParts root).foldlM d.enter d.workingDirectory = .ok place := by
  have hbase : d.base root = d.workingDirectory := by simp [base, hrel]
  exact hbase ▸ h.steps_stem

theorem Leads.at_dot (h : Leads d root place) (hrel : isAbsolute root = false) :
    At d ['.'] d.workingDirectory := by
  have hsteps := h.foldlM hrel
  cases hparts : rootParts root with
  | nil => exact absurd hparts (Text.splitOn_ne_nil '/' _)
  | cons t rest =>
    obtain ⟨next, he, _⟩ := foldlM_cons_eq_ok (hparts ▸ hsteps)
    obtain ⟨es, hes, _⟩ := enter_eq_ok he
    exact Disk.at_dot hes

theorem mem_expand_below {paths : List Text} {q : Text} (hne : root ≠ [])
    (hrel : isAbsolute root = false) (he : d.expand (below root pattern) = .ok paths)
    (hq : q ∈ paths) : ∃ tokens, (patternParts pattern).mapM Glob.parse = .ok tokens ∧
      q ∈ d.walk ((rootParts root).map (List.map exactToken) ++ collapse tokens) ['.'] := by
  obtain ⟨all, hall, hmem⟩ := mem_expand he hq
  rw [walkParts_below hne hrel, mapM_parse_escape] at hall
  rw [walkStart_below hne hrel] at hmem
  cases ht : (patternParts pattern).mapM Glob.parse with
  | error e => simp [ht] at hall
  | ok tokens =>
    refine ⟨tokens, rfl, ?_⟩
    obtain rfl : (rootParts root).map (List.map exactToken) ++ tokens = all := by
      simpa [ht] using hall
    rwa [collapse_exact_parts] at hmem

theorem steps_spell_rootParts (root : Text) (base : List Text) :
    d.steps base (spell ['.'] (rootParts root)) = (rootParts root).foldlM d.enter base :=
  steps_spell_dot (fun _ => notMem_of_mem_rootParts) (Text.splitOn_ne_nil '/' _) base

theorem Leads.follow_spell (h : Leads d root place) (hrel : isAbsolute root = false) :
    d.follow (spell ['.'] (rootParts root)) = .ok place := by
  have hspell : isAbsolute (spell ['.'] (rootParts root)) = isAbsolute root := by
    rw [isAbsolute_spell (fun _ => notMem_of_mem_rootParts), hrel]
    rfl
  have hbase : d.base (spell ['.'] (rootParts root)) = d.base root := by simp [base, hspell]
  rw [Disk.follow, hbase, steps_spell_rootParts]
  exact h.steps_stem

/-- What a relative root contributes to a path: its spelling, which leads where the root does. -/
theorem Leads.mem_walk {paths : List Text} {q : Text} (hd : d.WellFormed) (h : Leads d root place)
    (hrel : isAbsolute root = false) (he : d.expand (below root pattern) = .ok paths)
    (hq : q ∈ paths) : ∃ tokens, (patternParts pattern).mapM Glob.parse = .ok tokens ∧
      At d (spell ['.'] (rootParts root)) place ∧
      q ∈ d.walk (collapse tokens) (spell ['.'] (rootParts root)) := by
  obtain ⟨tokens, htokens, hmem⟩ := mem_expand_below h.ne_nil hrel he hq
  obtain ⟨⟨next, hnext⟩, hwalk⟩ :=
    walk_exact_parts hd (h.at_dot hrel) (fun t => notMem_of_mem_rootParts) hmem
  exact ⟨tokens, htokens, ⟨hnext.tidy, h.follow_spell hrel⟩, hwalk⟩

theorem Leads.extends {paths : List Text} {q : Text} (hd : d.WellFormed) (h : Leads d root place)
    (hrel : isAbsolute root = false) (he : d.expand (below root pattern) = .ok paths)
    (hq : q ∈ paths) :
    pattern = [] ∧ q = spell ['.'] (rootParts root) ∨
      ∃ next, Extends d (spell ['.'] (rootParts root)) place q next := by
  obtain ⟨tokens, htokens, hat, hmem⟩ := h.mem_walk hd hrel he hq
  have hcut : Cut (collapse tokens) := fun part hpart =>
    cut_of_mapM (fun p => notMem_of_mem_patternParts) htokens part (mem_collapse hpart)
  rcases extends_walk hd hcut hat hmem with ⟨hnil, rfl⟩ | hext
  · refine Or.inl ⟨?_, rfl⟩
    by_contra hne
    obtain ⟨part, parts, hparts⟩ := List.exists_cons_of_ne_nil (patternParts_ne_nil hne)
    have htnil : tokens = [] := by_contra fun h => collapse_ne_nil h hnil
    obtain ⟨first, rest, _, _, hcons⟩ := mapM_parse_cons_eq_ok (hparts ▸ htokens)
    exact List.cons_ne_nil first rest (hcons.symm.trans htnil)
  · exact Or.inr hext

theorem Leads.at_hit {paths : List Text} {q : Text} (hd : d.WellFormed) (h : Leads d root place)
    (he : d.expand (below root pattern) = .ok paths) (hq : q ∈ paths) :
    (∃ next, At d q next) ∧ isAbsolute q = isAbsolute root := by
  rw [← isAbsolute_below h.ne_nil pattern]
  refine expand_at hd ?_ he hq
  by_cases habs : isAbsolute root = true
  · refine ⟨[], ?_⟩
    rw [walkStart, isAbsolute_below h.ne_nil, if_pos habs]
    exact at_top d
  · rw [Bool.not_eq_true] at habs
    rw [walkStart_below h.ne_nil habs]
    exact ⟨_, h.at_dot habs⟩

/-- The first component that is not a single dot is empty: the root is absolute, or the walk does
not get past it. -/
def Blocked (root : Text) : Prop :=
  ((rootParts root).dropWhile (· == ['.'])).head? = some []

instance (root : Text) : Decidable (Blocked root) := inferInstanceAs (Decidable (_ = _))

theorem blocked_of_isAbsolute (h : isAbsolute root = true) : Blocked root := by
  rw [Blocked, rootParts_of_isAbsolute h]
  rfl

theorem byteSize_stem_le (path : Text) : Text.byteSize (stem path) ≤ Text.byteSize path := by
  rcases eq_stem_or path with ⟨h, _⟩ | h
  · rw [← h]
  · nth_rewrite 2 [h]
    simp

theorem Leads.spell_way (h : Leads d root place) (hb : ¬ Blocked root) {way : List Text}
    (hway : way <+: rootParts root) :
    spell ['.'] way ≠ [] ∧ Text.byteSize (spell ['.'] way) < 4096 := by
  refine ⟨fun hnil => hb ?_, ?_⟩
  · exact (exists_spell_eq_nil_iff (fun _ => notMem_of_mem_rootParts)).1 ⟨way, hway, hnil⟩
  · by_cases hne : way = []
    · rw [hne]
      decide
    · calc
        Text.byteSize (spell ['.'] way) ≤ Text.byteSize (stem root) := byteSize_spell_le hway hne
        _ ≤ Text.byteSize root := byteSize_stem_le root
        _ < 4096 := h.short

theorem Leads.walk_rootParts (hd : d.WellFormed) (h : Leads d root place)
    (hrel : isAbsolute root = false) (hb : ¬ Blocked root) (rest : List (List Token)) :
    d.walk ((rootParts root).map (List.map exactToken) ++ rest) ['.'] =
        d.walk rest (spell ['.'] (rootParts root)) ∧
      At d (spell ['.'] (rootParts root)) place := by
  refine walk_exact_parts_eq hd (h.at_dot hrel) (fun t ht => ?_) (h.foldlM hrel)
    fun way => h.spell_way hb
  exact ⟨notMem_of_mem_rootParts ht, fun hc => h.no_nul (mem_of_mem_rootParts ht hc)⟩

theorem Leads.at_spell (hd : d.WellFormed) (h : Leads d root place)
    (hrel : isAbsolute root = false) (hb : ¬ Blocked root) :
    At d (spell ['.'] (rootParts root)) place := (h.walk_rootParts hd hrel hb []).2

theorem Leads.isDirectory_spell (hd : d.WellFormed) (h : Leads d root place)
    (hrel : isAbsolute root = false) (hb : ¬ Blocked root) :
    d.isDirectory (spell ['.'] (rootParts root)) = true := by
  have hat := h.at_spell hd hrel hb
  obtain ⟨es, hes⟩ := h.directory
  exact isDirectory_iff.2 ⟨hat.tidy.ne_nil, hat.tidy.no_nul, (h.spell_way hb List.prefix_rfl).2,
    place, es, hat.follow, hes⟩

theorem mem_expand_of_mem_walk {ts : List Token} {tokens : List (List Token)} {q : Text}
    (hd : d.WellFormed) (h : Leads d root place) (hrel : isAbsolute root = false)
    (hb : ¬ Blocked root) (hscan : ∀ fresh pos, scan (.between fresh) pos pattern = .ok ts)
    (htokens : (patternParts pattern).mapM Glob.parse = .ok tokens)
    (hq : q ∈ d.walk (collapse tokens) (spell ['.'] (rootParts root)))
    (hdir : d.isDirectory q = true ∨ (below root pattern).getLast? ≠ some '/') :
    ∃ paths, d.expand (below root pattern) = .ok paths ∧ q ∈ paths := by
  have hwhole : ∃ whole, Glob.parse (below root pattern) = .ok whole := by
    refine ⟨_, Eq.trans ?_ (parse_escape_append (stem root ++ ['/']) hscan)⟩
    rw [below, escape_append, List.append_assoc]
    rfl
  have hall : (walkParts (below root pattern)).mapM Glob.parse =
      .ok ((rootParts root).map (List.map exactToken) ++ tokens) := by
    rw [walkParts_below h.ne_nil hrel, mapM_parse_escape, htokens]
    rfl
  refine ⟨_, expand_eq_ok_iff.2 ⟨hwhole, _, hall, rfl⟩, ?_⟩
  rw [collapse_exact_parts, walkStart_below h.ne_nil hrel]
  have hmem := (h.walk_rootParts hd hrel hb (collapse tokens)).1 ▸ hq
  split_ifs with hlast
  · exact List.mem_filter.2 ⟨hmem, hdir.resolve_right (fun hn => hn hlast)⟩
  · exact hmem

theorem Leads.mem_walk_dot (hd : d.WellFormed) (h : Leads d root place)
    (hrel : isAbsolute root = false) (hb : ¬ Blocked root) :
    child (spell ['.'] (rootParts root)) ['.'] ∈
      d.walk [[.char '.']] (spell ['.'] (rootParts root)) := by
  have hl : literal? [.char '.'] = some ['.'] := rfl
  refine (mem_walk_literal hl).2 ⟨?_, List.mem_singleton_self _⟩
  rw [present, if_pos (Or.inl rfl)]
  exact h.isDirectory_spell hd hrel hb

theorem Leads.mem_walk_entry {es : List (Text × DiskNode)} {name : Text} (hd : d.WellFormed)
    (h : Leads d root place) (hrel : isAbsolute root = false) (hb : ¬ Blocked root)
    (hs : '/' ∉ name) (hes : d.node? place = some (.directory es)) (hm : name ∈ es.map Prod.fst) :
    child (spell ['.'] (rootParts root)) name ∈
      d.walk [[.anyRun]] (spell ['.'] (rootParts root)) := by
  have hat := h.at_spell hd hrel hb
  have hlookup : d.lookup (spell ['.'] (rootParts root)) = .ok (.directory es) :=
    lookup_eq_ok_iff.2 ⟨hat.tidy.ne_nil, hat.tidy.no_nul, (h.spell_way hb List.prefix_rfl).2, place,
      hat.follow, hes⟩
  have hnames : name ∈ d.names (spell ['.'] (rootParts root)) := by
    simpa [Disk.names, hlookup] using hm
  exact (mem_walk_wild (by decide) rfl).2 ⟨h.isDirectory_spell hd hrel hb,
    Or.inr ⟨name, hnames, matchesText_run_iff.2 hs, List.mem_singleton_self _⟩⟩

end ManifestShell.DiskView
