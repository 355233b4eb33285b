import ManifestShell.Proofs.RootSpelling
import ManifestShell.Proofs.StraightRoots

/-! A directory of a disk and a listing of it propose the same.
Below a root that is written without gaps and dots, the disk proposes for a typed path the same
completions as a listing of the tree under the root, in the same order and cut off at the same
limit.  Only what has a path too long for the operating system is left out. -/
namespace ManifestShell

namespace DiskView

open Disk Glob Source

variable {d : Disk} {root typed : Text} {place : List Text} {es : List (Text × DiskNode)}

theorem patternParts_leadOf {names : List Text} (h : ∀ c ∈ names, '/' ∉ c) (pattern : Text) :
    patternParts (Text.leadOf '/' names ++ pattern) = names ++ patternParts pattern := by
  induction names with
  | nil => rfl
  | cons c names ih =>
    obtain ⟨hc, hrest⟩ := List.forall_mem_cons.1 h
    rw [Text.leadOf_cons, List.append_assoc, List.cons_append, patternParts_append,
      Text.splitOn_of_notMem hc, ih hrest]
    rfl

theorem patternParts_of_notMem {t : Text} (hs : '/' ∉ t) (hne : t ≠ []) : patternParts t = [t] := by
  simp [patternParts, Text.splitOn_of_notMem hs, hne]

structure StraightParts (names : List Text) (last : Text) : Prop where
  proper : ∀ c ∈ names, Proper c
  no_separator : '/' ∉ last
  ne_dot : last ≠ ['.']
  ne_dots : last ≠ ['.', '.']
  literal : Literal (Text.leadOf '/' names ++ last)

theorem exists_straightParts (h : Straight typed) :
    ∃ names last, typed = Text.leadOf '/' names ++ last ∧ StraightParts names last := by
  obtain ⟨names, last, hnames, hlast, rfl⟩ := Text.exists_leadOf '/' typed
  have hsplit : Text.splitOn '/' (Text.leadOf '/' names ++ last) = names ++ [last] := by
    rw [Text.splitOn_leadOf_append hnames, Text.splitOn_of_notMem hlast]
  have hgap := h.no_gap
  obtain ⟨hdot, hdots⟩ := h.no_dots
  rw [hsplit] at hgap hdot hdots
  rw [List.dropLast_concat] at hgap
  simp only [List.mem_append, List.mem_singleton, not_or] at hdot hdots
  refine ⟨names, last, rfl, fun c hc => ⟨?_, ?_, ?_, hnames c hc⟩, hlast, Ne.symm hdot.2,
    Ne.symm hdots.2, h.literal⟩
  · exact fun he => hgap (he ▸ hc)
  · exact fun he => hdot.1 (he ▸ hc)
  · exact fun he => hdots.1 (he ▸ hc)

section Typed

variable {names : List Text} {last : Text}

theorem StraightParts.names_separator (hp : StraightParts names last) : ∀ c ∈ names, '/' ∉ c :=
  fun c hc => (hp.proper c hc).no_separator

theorem StraightParts.literal_names (hp : StraightParts names last) : ∀ c ∈ names, Literal c := by
  intro c hc b hb
  exact hp.literal b (List.mem_append_left _
    (List.mem_flatMap.2 ⟨c, hc, List.mem_append_left _ hb⟩))

theorem StraightParts.literal_last (hp : StraightParts names last) : Literal last :=
  fun b hb => hp.literal b (List.mem_append_right _ hb)

theorem isAbsolute_leadOf (hnames : ∀ c ∈ names, Proper c) (hlast : '/' ∉ last) :
    isAbsolute (Text.leadOf '/' names ++ last) = false := by
  cases names with
  | nil => exact isAbsolute_of_notMem hlast
  | cons c names =>
    have hc := hnames c List.mem_cons_self
    obtain ⟨b, c, rfl⟩ := List.exists_cons_of_ne_nil hc.ne_nil
    have hb : b ≠ '/' := fun hb => hc.no_separator (hb ▸ List.mem_cons_self)
    simp [isAbsolute, hb]

theorem isAbsolute_append_star (h : isAbsolute typed = false) (x : Text) :
    isAbsolute (typed ++ '*' :: x) = false := by
  cases typed with
  | nil => rfl
  | cons c typed => exact h

theorem handOut_eq (root p : Text) : handOut root (stem root ++ '/' :: p) = p := by
  have hdrop : Text.dropStart? (stem root ++ ['/']) (stem root ++ '/' :: p) = some p :=
    Text.dropStart?_eq_some_iff.2 (by simp)
  rw [handOut, hdrop]
  rfl

theorem mapM_parse_names (h : ∀ c ∈ names, Literal c) {parts : List Text}
    {tokens : List (List Token)} (hparts : parts.mapM Glob.parse = .ok tokens) :
    (names ++ parts).mapM Glob.parse = .ok (names.map (List.map .char) ++ tokens) := by
  have hparse : ∀ c ∈ names, Glob.parse (id c) = .ok (c.map .char) := fun c hc =>
    parse_literal (h c hc)
  have hmap := mapM_parse_append hparse parts
  rw [List.map_id, hparts] at hmap
  exact hmap

theorem collapse_names (names : List Text) (parts : List (List Token)) :
    collapse (names.map (List.map .char) ++ parts) =
      names.map (List.map .char) ++ collapse parts := by
  refine collapse_append (fun part hpart => ?_) parts
  obtain ⟨t, _, rfl⟩ := List.mem_map.1 hpart
  cases t <;> simp

variable (hd : d.WellFormed) (h : Leads d root place)
  (hes : d.node? place = some (.directory es)) (hroot : ∀ c ∈ rootNames root, Proper c)

include hd h hes hroot

theorem walk_typed (hp : StraightParts names last) (rest : List (List Token)) :
    d.walk (names.map (List.map .char) ++ (last.map .char ++ [.anyRun]) :: rest) (rootPath root) =
      if Text.byteSize (spell (rootPath root) names) < 4096 then
        (completions es (Text.leadOf '/' names ++ last)).flatMap fun c =>
          d.walk rest (stem root ++ '/' :: c.1)
      else [] := by
  have hat := (h.walk_root hd hroot []).2
  have hsize := lt_of_le_of_lt (byteSize_rootPath_le hroot) h.short
  rw [walk_names hd hat hes hsize (isDot_rootPath hroot) hp.proper,
    completions_eq hp.names_separator hp.no_separator, List.flatMap_map]
  by_cases hshort : Text.byteSize (spell (rootPath root) names) < 4096
  · rw [if_pos hshort]
    cases hfind : DiskNode.find? names (.directory es) with
    | none => simp [entriesAt, hfind]
    | some n =>
      have hnode := (node?_append hes names).trans hfind
      rw [if_pos ⟨rfl, hshort⟩, walk_beginning hd (at_spell hd hat hes hfind) hnode hshort
        hp.ne_dot hp.ne_dots, entriesAt, hfind]
      refine List.flatMap_congr fun e he => ?_
      have hvalid : '/' ∉ e.1 := by
        cases DiskNode.wellFormed_entries (hd.node? hnode) with
        | directory _ hvalid _ => exact (hvalid e (List.mem_of_mem_filter he)).no_separator
      rw [child_spell hat.tidy.ne_nil (isDot_rootPath hroot)
        (fun c hc => ⟨(hp.proper c hc).ne_nil, hp.names_separator c hc⟩) hvalid,
        stem_rootPath hroot]
  · rw [if_neg hshort, if_neg fun hboth => hshort hboth.2]

theorem glob_typed (hp : StraightParts names last) (limit : Nat) :
    (DiskView.mk d root).glob (Text.leadOf '/' names ++ last ++ ['*']) limit =
      .ok (if Text.byteSize (spell (rootPath root) names) < 4096 then
        ((completions es (Text.leadOf '/' names ++ last)).take limit).map Prod.fst else []) := by
  have hstar : '/' ∉ last ++ ['*'] := by simp [hp.no_separator]
  have htokens : (patternParts (Text.leadOf '/' names ++ last ++ ['*'])).mapM Glob.parse =
      .ok (names.map (List.map .char) ++ [last.map .char ++ [.anyRun]]) := by
    rw [List.append_assoc, patternParts_leadOf hp.names_separator,
      patternParts_of_notMem hstar (by simp)]
    refine mapM_parse_names hp.literal_names ?_
    rw [List.mapM_cons, Glob.parse, scan_typed hp.literal_last]
    rfl
  have habs := isAbsolute_append_star (isAbsolute_leadOf hp.proper hp.no_separator) []
  rw [h.glob_eq hd hroot habs (by simp) (by simp) (scan_typed hp.literal) htokens, collapse_names]
  change Except.ok (((d.walk (_ ++ [_]) _).take limit).map _) = _
  rw [walk_typed hd h hes hroot hp]
  split_ifs
  · simp only [walk, ← List.map_eq_flatMap, List.map_take, List.map_map]
    congr 2
    exact List.map_congr_left fun c _ => handOut_eq root c.1
  · simp

theorem walk_deep (hp : StraightParts names last) : ∃ tokens,
    (patternParts (deepPattern (Text.leadOf '/' names ++ last))).mapM Glob.parse = .ok tokens ∧
      ((Text.byteSize (spell (rootPath root) names) < 4096 →
        completions es (Text.leadOf '/' names ++ last) = []) →
          d.walk (collapse tokens) (rootPath root) = []) := by
  unfold deepPattern
  split_ifs with hend
  · -- the path ends with a separator, so that all entries of the directory complete it
    obtain rfl : last = [] := by
      by_contra hne
      rw [List.getLast?_append_of_ne_nil _ hne] at hend
      exact hp.no_separator (List.mem_of_getLast? hend)
    refine ⟨names.map (List.map .char) ++ [[.anyComponents]], ?_, ?_⟩
    · rw [List.append_nil, patternParts_leadOf hp.names_separator]
      exact mapM_parse_names hp.literal_names rfl
    · intro hnone
      have hat := (h.walk_root hd hroot []).2
      have hsize := lt_of_le_of_lt (byteSize_rootPath_le hroot) h.short
      rw [collapse_names]
      change d.walk (_ ++ [[.anyComponents]]) _ = _
      rw [walk_names hd hat hes hsize (isDot_rootPath hroot) hp.proper]
      split_ifs with hthere
      · obtain ⟨n, hn⟩ := Option.isSome_iff_exists.1 hthere.1
        have hempty : n.entries = [] := by
          have hnone := hnone hthere.2
          rw [completions_eq hp.names_separator hp.no_separator, List.map_eq_nil_iff, entriesAt,
            hn] at hnone
          simpa using hnone
        exact walk_any_of_empty (at_spell hd hat hes hn) ((node?_append hes names).trans hn) hempty
      · rfl
  · refine ⟨names.map (List.map .char) ++ [last.map .char ++ [.anyRun], [.anyComponents]], ?_, ?_⟩
    · have hstar : '/' ∉ last ++ ['*'] := by simp [hp.no_separator]
      have hcut : last ++ "*/**".toList = (last ++ ['*']) ++ '/' :: ['*', '*'] := by simp
      rw [List.append_assoc, patternParts_leadOf hp.names_separator, hcut, patternParts_append,
        Text.splitOn_of_notMem hstar]
      refine mapM_parse_names hp.literal_names ?_
      rw [List.cons_append, List.mapM_cons, Glob.parse, scan_typed hp.literal_last]
      rfl
    · intro hnone
      have hcollapse : collapse ([last.map .char ++ [.anyRun]] ++ [[.anyComponents]]) =
          [last.map .char ++ [.anyRun], [.anyComponents]] :=
        collapse_append (by simpa using beginning_ne last) [[.anyComponents]]
      rw [List.singleton_append] at hcollapse
      rw [collapse_names, hcollapse, walk_typed hd h hes hroot hp]
      split_ifs with hshort
      · rw [hnone hshort, List.flatMap_nil]
      · rfl

theorem disk_pathEntries (hp : StraightParts names last) (limit : Nat) :
    pathEntries (DiskView.mk d root).fileSystem limit (Text.leadOf '/' names ++ last) =
      .ok (if Text.byteSize (spell (rootPath root) names) < 4096 then
        ((completions es (Text.leadOf '/' names ++ last)).take limit).map Prod.fst else []) := by
  refine pathEntries_eq (glob_typed hd h hes hroot hp limit) fun hnil => ?_
  obtain ⟨ts, hscan⟩ := exists_scan_deepPattern hp.literal
  obtain ⟨tokens, htokens, hwalk⟩ := walk_deep hd h hes hroot hp
  have hrel := isAbsolute_leadOf hp.proper hp.no_separator
  obtain ⟨habs, hne, hlast⟩ : isAbsolute (deepPattern (Text.leadOf '/' names ++ last)) = false ∧
      deepPattern (Text.leadOf '/' names ++ last) ≠ [] ∧
      (deepPattern (Text.leadOf '/' names ++ last)).getLast? ≠ some '/' := by
    unfold deepPattern
    split_ifs
    · exact ⟨isAbsolute_append_star hrel _, by simp, by simp⟩
    · exact ⟨isAbsolute_append_star hrel _, by simp, by simp⟩
  change (DiskView.mk d root).glob _ limit = _
  rw [h.glob_eq hd hroot habs hne hlast hscan htokens]
  by_cases hzero : limit = 0
  · rw [hzero, List.take_zero, List.map_nil]
  · rw [hwalk fun hshort => ?_, List.take_nil, List.map_nil]
    rw [if_pos hshort, List.map_eq_nil_iff, List.take_eq_nil_iff] at hnil
    exact hnil.resolve_left hzero

theorem at_join {p : Text} {n : DiskNode} (hn : DiskNode.nodeAt es p = some n) :
    ∃ next, At d (join root p) next ∧ d.node? next = some n := by
  obtain ⟨names, last, hnames, hlast, rfl⟩ := Text.exists_leadOf '/' p
  have hat := (h.walk_root hd hroot []).2
  rw [DiskNode.nodeAt, Text.splitOn_leadOf_append hnames, Text.splitOn_of_notMem hlast] at hn
  have hvalid := validName_of_find? (hd.node? hes) hn
  have hproper : ∀ c ∈ names, Proper c := fun c hc =>
    have hv := hvalid c (List.mem_append_left _ hc)
    ⟨hv.ne_nil, hv.ne_dot, hv.ne_dots, hv.no_separator⟩
  have hspell : spell (rootPath root) (names ++ [last]) =
      join root (Text.leadOf '/' names ++ last) := by
    rw [spell_append, child_spell hat.tidy.ne_nil (isDot_rootPath hroot)
      (fun c hc => ⟨(hproper c hc).ne_nil, hnames c hc⟩) hlast, stem_rootPath hroot,
      join_eq h.ne_nil (isAbsolute_leadOf hproper hlast)]
  exact ⟨place ++ (names ++ [last]), hspell ▸ at_spell hd hat hes hn,
    (node?_append hes _).trans hn⟩

theorem kind_of_short {p : Text} {n : DiskNode} (hn : DiskNode.nodeAt es p = some n)
    (hshort : Text.byteSize (join root p) < 4096) : (DiskView.mk d root).kind p = .ok n.kind := by
  obtain ⟨next, hat, hnode⟩ := at_join hd h hes hroot hn
  simp only [DiskView.kind, Disk.kind, hat.lookup_eq hnode hshort, Except.map]

omit hd h hes hroot in
theorem kind_of_long {p : Text} (hlong : ¬ Text.byteSize (join root p) < 4096) :
    ∃ err, (DiskView.mk d root).kind p = .error err := by
  cases hlookup : d.lookup (join root p) with
  | error e =>
    exact ⟨.entry p e.message, by simp only [DiskView.kind, Disk.kind, hlookup, Except.map]⟩
  | ok n => exact absurd (lookup_eq_ok_iff.1 hlookup).2.2.1 hlong

theorem byteSize_le_join (hp : StraightParts names last) {c : Text × DiskNode}
    (hc : c ∈ completions es (Text.leadOf '/' names ++ last)) :
    Text.byteSize (spell (rootPath root) names) ≤ Text.byteSize (join root c.1) := by
  have hat := (h.walk_root hd hroot []).2
  have hdot := isDot_rootPath hroot
  obtain ⟨_, y, hy, hpath⟩ := (mem_completions (hd.node? hes)).1 hc
  have hname : '/' ∉ last ++ y := by simp [hp.no_separator, hy]
  have hchild : child (spell (rootPath root) names) (last ++ y) = join root c.1 := by
    rw [child_spell hat.tidy.ne_nil hdot
      (fun c hc => ⟨(hp.proper c hc).ne_nil, hp.names_separator c hc⟩) hname, stem_rootPath hroot,
      hpath, List.append_assoc, join_eq h.ne_nil (isAbsolute_leadOf hp.proper hname)]
  rw [← hchild]
  exact byteSize_le_child (spell_ne_nil hp.names_separator hat.tidy.ne_nil hdot)
    (isDot_spell hat.tidy.ne_nil hdot hp.names_separator) hname

/-- The disk proposes the completions in order, as many as the limit says, but for those whose paths
are too long. -/
theorem disk_pathForms {line before after : Text} (hstraight : Straight typed)
    (hline : Query.importSpan? line = some (before, typed, after)) (limit : Nat) :
    pathForms (DiskView.mk d root).fileSystem limit line =
      .ok ((((completions es typed).take limit).filter fun c =>
        Text.byteSize (join root c.1) < 4096).map (completed before after)) := by
  obtain ⟨names, last, rfl, hp⟩ := exists_straightParts hstraight
  simp only [pathForms, hline, disk_pathEntries hd h hes hroot hp, Except.map, Except.ok.injEq]
  by_cases hshort : Text.byteSize (spell (rootPath root) names) < 4096
  · rw [if_pos hshort, List.filterMap_map, ← List.filterMap_eq_map, List.filterMap_filter]
    refine List.filterMap_congr fun c hc => ?_
    obtain ⟨hn, _⟩ := (mem_completions (hd.node? hes)).1 (List.mem_of_mem_take hc)
    by_cases hc : Text.byteSize (join root c.1) < 4096
    · simp only [hc, decide_true, if_true]
      exact pathForm_of_kind (kind_of_short hd h hes hroot hn hc)
    · obtain ⟨err, herr⟩ := kind_of_long hc
      simp only [hc, decide_false, Bool.false_eq_true, if_false]
      exact pathForm_of_error herr
  · have hnone : (((completions es (Text.leadOf '/' names ++ last)).take limit).filter fun c =>
        Text.byteSize (join root c.1) < 4096) = [] := by
      refine List.filter_eq_nil_iff.2 fun c hc hlt => hshort ?_
      exact lt_of_le_of_lt (byteSize_le_join hd h hes hroot hp (List.mem_of_mem_take hc))
        (of_decide_eq_true hlt)
    rw [if_neg hshort, hnone]
    rfl

end Typed

end DiskView

namespace Source

open Disk DiskView

variable {d : Disk} {root : Text} {es : List (Text × DiskNode)} {ds : List Listing.Declaration}

theorem proposals_of_span {place : List Text} {line before typed after : Text} (hd : d.WellFormed)
    (h : Leads d root place) (hes : d.node? place = some (.directory es))
    (hroot : ∀ name ∈ rootNames root, Proper name) (hds : Listing.Describes ds es)
    (hstraight : Straight typed) (hline : Query.importSpan? line = some (before, typed, after))
    (limit : Nat) (c : Context) :
    (path limit).offer line { c with files := (Listing.ofDeclarations ds).fileSystem } =
        .answer (((completions es typed).take limit).map (completed before after)) ∧
      (path limit).offer line { c with files := (DiskView.mk d root).fileSystem } =
        .answer ((((completions es typed).take limit).filter fun e =>
          Text.byteSize (join root e.1) < 4096).map (completed before after)) := by
  have hwf := hd.node? hes
  have hlisting := listing_pathForms hwf (Listing.find?_ofDeclarations hwf hds) hstraight.literal
    hline limit
  have hdisk := disk_pathForms hd h hes hroot hstraight hline limit
  exact ⟨by simp only [path, hlisting], by simp only [path, hdisk]⟩

/-- What the disk and a listing propose for a line.

The disk is any, and its tree is described to the listing in any way.  Both propose the completions
of the typed path in order, as many as the limit says; the disk leaves out those with a path that is
too long for the operating system.  If the tree has no such paths, the two propose the same. -/
theorem disk_and_listing_agree (d : Disk) (root : Text) (es : List (Text × DiskNode))
    (ds : List Listing.Declaration) (limit : Nat) (line : Text) (c : Context) (hd : d.WellFormed)
    (hroot : ∀ name ∈ rootNames root, Proper name) (hes : d.lookup root = .ok (.directory es))
    (hds : Listing.Describes ds es)
    (hline : ∀ before typed after, Query.importSpan? line = some (before, typed, after) →
      Straight typed) :
    (∀ before typed after, Query.importSpan? line = some (before, typed, after) →
      (path limit).offer line { c with files := (Listing.ofDeclarations ds).fileSystem } =
          .answer (((completions es typed).take limit).map (completed before after)) ∧
        (path limit).offer line { c with files := (DiskView.mk d root).fileSystem } =
          .answer ((((completions es typed).take limit).filter fun e =>
            Text.byteSize (join root e.1) < 4096).map (completed before after))) ∧
      ((∀ p, (DiskNode.nodeAt es p).isSome → Text.byteSize (join root p) < 4096) →
        (path limit).offer line { c with files := (DiskView.mk d root).fileSystem } =
          (path limit).offer line
            { c with files := (Listing.ofDeclarations ds).fileSystem }) := by
  obtain ⟨hne, hnul, hsize, place, hfollow, hplace⟩ := lookup_eq_ok_iff.1 hes
  have hleads : Leads d root place := ⟨hne, hnul, hsize, hfollow, es, hplace⟩
  refine ⟨fun before typed after hspan => proposals_of_span hd hleads hplace hroot hds
    (hline before typed after hspan) hspan limit c, fun hshort => ?_⟩
  cases hspan : Query.importSpan? line with
  | none => simp only [path, pathForms, hspan]
  | some span =>
    obtain ⟨before, typed, after⟩ := span
    obtain ⟨hlisting, hdisk⟩ := proposals_of_span hd hleads hplace hroot hds
      (hline before typed after hspan) hspan limit c
    have hall : (((completions es typed).take limit).filter fun e =>
        Text.byteSize (join root e.1) < 4096) = (completions es typed).take limit := by
      refine List.filter_eq_self.2 fun e he => decide_eq_true (hshort e.1 ?_)
      rw [((mem_completions (hd.node? hplace)).1 (List.mem_of_mem_take he)).1]
      rfl
    rw [hlisting, hdisk, hall]

theorem byteSize_join_le (path next : Text) :
    Text.byteSize (join path next) ≤ Text.byteSize path + 1 + Text.byteSize next := by
  unfold join
  split_ifs
  · omega
  · rw [Text.byteSize_append]
    omega
  · have hsep : Text.byteSize ('/' :: next) = 1 + Text.byteSize next := rfl
    rw [Text.byteSize_append, hsep]
    omega

theorem short_of_describes (h : Listing.Describes ds es) (root : Text)
    (hds : ∀ decl ∈ ds, Text.byteSize root + 1 + Text.byteSize decl.path < 4096) :
    ∀ p, (DiskNode.nodeAt es p).isSome → Text.byteSize (join root p) < 4096 := by
  intro p hp
  obtain ⟨decl, hmem, hpath⟩ := h.complete p hp
  have hle : Text.byteSize p ≤ Text.byteSize decl.path := by
    rcases hpath with rfl | ⟨rest, hrest⟩
    · exact le_rfl
    · rw [← hrest, List.append_assoc, Text.byteSize_append]
      exact Nat.le_add_right _ _
  have hjoin := byteSize_join_le root p
  have hdecl := hds decl hmem
  omega

/-- A disk with directories in directories, to be looked at from `data/in`. -/
def nestedDisk : Disk where
  top := [("data", .directory [("in", .directory [("set", .directory
    [("a.xml", .file (.text [])), ("b", .directory [("c.xml", .file (.text []))]),
      ("bb.xml", .file (.text []))])])])]
  workingDirectory := []

theorem nestedDisk_wellFormed : nestedDisk.WellFormed := by
  have hname (name : Text) (h : name ∈ ["data".toList, "in".toList, "set".toList, "a.xml".toList,
      "b".toList, "bb.xml".toList, "c.xml".toList]) : ValidName name := by
    simp only [List.mem_cons, List.not_mem_nil, or_false] at h
    rcases h with rfl | rfl | rfl | rfl | rfl | rfl | rfl <;> constructor <;> decide +kernel
  refine DiskNode.wellFormed_single (hname _ (by simp)) ?_
  refine DiskNode.wellFormed_single (hname _ (by simp)) ?_
  refine DiskNode.wellFormed_single (hname _ (by simp)) ?_
  refine .directory (by unfold Entries.Ascending; decide +kernel) ?_ ?_
  · simp only [List.forall_mem_cons]
    exact ⟨hname _ (by simp), hname _ (by simp), hname _ (by simp), by simp⟩
  · simp only [List.forall_mem_cons]
    exact ⟨.file _, DiskNode.wellFormed_single (hname _ (by simp)) (.file _), .file _, by simp⟩

/-- A directory and a file that begin alike, below a directory that is typed out. -/
theorem nested_tree_agrees :
    let es : List (Text × DiskNode) := [("set", .directory
      [("a.xml", .file (.text [])), ("b", .directory [("c.xml", .file (.text []))]),
        ("bb.xml", .file (.text []))])]
    let ds := Listing.declarations [] es
    let c : Context := ⟨Table.empty, Table.empty, none, Listing.empty.fileSystem⟩
    nestedDisk.WellFormed ∧ (∀ name ∈ rootNames "data/in", Proper name) ∧
      nestedDisk.lookup "data/in" = .ok (.directory es) ∧ Listing.Describes ds es ∧
      Query.importSpan? "import set/b" = some ("import ".toList, "set/b".toList, []) ∧
      Straight "set/b" ∧
      (∀ p, (DiskNode.nodeAt es p).isSome → Text.byteSize (join "data/in" p) < 4096) ∧
      (path 5).offer "import set/b" { c with files := (Listing.ofDeclarations ds).fileSystem } =
        .answer ["import set/b/", "import set/bb.xml"] ∧
      (path 5).offer "import set/b"
          { c with files := (DiskView.mk nestedDisk "data/in").fileSystem } =
        .answer ["import set/b/", "import set/bb.xml"] := by
  intro es ds c
  have hspan : Query.importSpan? "import set/b" =
      some ("import ".toList, "set/b".toList, []) := by rfl
  have hstraight : Straight "set/b" := ⟨by decide, by decide, by decide⟩
  have hproper : ∀ name ∈ rootNames "data/in", Proper name := by
    have hnames : rootNames "data/in" = ["data".toList, "in".toList] := by decide +kernel
    rw [hnames, List.forall_mem_cons, List.forall_mem_singleton]
    constructor <;> constructor <;> decide
  have hlookup : nestedDisk.lookup "data/in" = .ok (.directory es) := by rfl
  obtain ⟨_, _, _, _, _, hplace⟩ := lookup_eq_ok_iff.1 hlookup
  have hds : Listing.Describes ds es :=
    Listing.describes_declarations (nestedDisk_wellFormed.node? hplace)
  have hshort := short_of_describes hds "data/in" (by decide +kernel)
  have hmain := disk_and_listing_agree nestedDisk "data/in" es ds 5 "import set/b" c
    nestedDisk_wellFormed hproper hlookup hds fun before typed after h => by
      obtain ⟨_, rfl, _⟩ : "import ".toList = before ∧ "set/b".toList = typed ∧ [] = after := by
        simpa only [Option.some.injEq, Prod.mk.injEq] using hspan.symm.trans h
      exact hstraight
  have hlisting := (hmain.1 _ _ _ hspan).1
  exact ⟨nestedDisk_wellFormed, hproper, hlookup, hds, hspan, hstraight, hshort, hlisting,
    (hmain.2 hshort).trans hlisting⟩

/-! ### A path that is too long -/

/-- A file below directories that all have its name. -/
def repeated (name : Text) : Nat → DiskNode
  | 0 => .file (.text [])
  | n + 1 => .directory [(name, repeated name n)]

theorem wellFormed_repeated {name : Text} (h : ValidName name) (n : Nat) :
    (repeated name n).WellFormed := by
  induction n with
  | zero => exact .file _
  | succ n ih => exact DiskNode.wellFormed_single h ih

theorem find?_repeated (name : Text) (n m : Nat) :
    DiskNode.find? (List.replicate n name) (repeated name (m + n)) = some (repeated name m) := by
  induction n with
  | zero => rfl
  | succ n ih =>
    have hentry : Entries.find? name [(name, repeated name (m + n))] =
        some (repeated name (m + n)) := by simp [Entries.find?]
    rw [List.replicate_succ, ← Nat.add_assoc, repeated, DiskNode.find?, hentry]
    exact ih

theorem completions_repeated {name : Text} (h : '/' ∉ name) (n : Nat) :
    completions [(name, repeated name n)] (Text.leadOf '/' (List.replicate n name)) =
      [(Text.leadOf '/' (List.replicate n name) ++ name, .file (.text []))] := by
  have hnames : ∀ c ∈ List.replicate n name, '/' ∉ c := fun c hc =>
    List.eq_of_mem_replicate hc ▸ h
  have hfind := find?_repeated name n 1
  rw [Nat.add_comm] at hfind
  have hentries : entriesAt [(name, repeated name n)] (List.replicate n name) =
      [(name, .file (.text []))] := by
    rw [entriesAt]
    exact congrArg (fun o => (Option.map DiskNode.entries o).getD []) hfind
  rw [← List.append_nil (Text.leadOf '/' (List.replicate n name)),
    completions_eq hnames List.not_mem_nil, hentries]
  simp

/-- Fifteen directories with names of 255 bytes and a file with such a name.  Below the root `r` its
path has 4097 bytes: the listing proposes it, the disk does not. -/
theorem long_path_left_out :
    let name : Text := List.replicate 255 'd'
    let typed := Text.leadOf '/' (List.replicate 15 name)
    let es := [(name, repeated name 15)]
    let d : Disk := ⟨[("r", .directory es)], []⟩
    let ds := Listing.declarations [] es
    let line := "import ".toList ++ typed
    let c : Context := ⟨Table.empty, Table.empty, none, Listing.empty.fileSystem⟩
    d.WellFormed ∧ (∀ name ∈ rootNames "r", Proper name) ∧
      d.lookup "r" = .ok (.directory es) ∧ Listing.Describes ds es ∧
      Query.importSpan? line = some ("import ".toList, typed, []) ∧ Straight typed ∧
      Text.byteSize (join "r" (typed ++ name)) = 4097 ∧
      (path 256).offer line { c with files := (Listing.ofDeclarations ds).fileSystem } =
        .answer [line ++ name] ∧
      (path 256).offer line { c with files := (DiskView.mk d "r").fileSystem } = .answer [] := by
  intro name typed es d ds line c
  have hname : ValidName name := by constructor <;> decide +kernel
  have hwf : (DiskNode.directory es).WellFormed := wellFormed_repeated hname 16
  have hr : ValidName "r" := by constructor <;> decide +kernel
  have hd : d.WellFormed := DiskNode.wellFormed_single hr hwf
  have hproper : ∀ name ∈ rootNames "r", Proper name := by
    intro name hmem
    obtain rfl : name = "r" := List.mem_singleton.1 hmem
    constructor <;> decide
  have hlookup : d.lookup "r" = .ok (.directory es) := by rfl
  have hds : Listing.Describes ds es := Listing.describes_declarations hwf
  have hspan : Query.importSpan? line = some ("import ".toList, typed, []) := by decide +kernel
  have hstraight : Straight typed := by constructor <;> decide +kernel
  have hsize : Text.byteSize (join "r" (typed ++ name)) = 4097 := by decide +kernel
  obtain ⟨hne, hnul, hroot, place, hfollow, hplace⟩ := lookup_eq_ok_iff.1 hlookup
  obtain ⟨hlisting, hdisk⟩ := proposals_of_span hd ⟨hne, hnul, hroot, hfollow, es, hplace⟩ hplace
    hproper hds hstraight hspan 256 c
  have hone : (completions es typed).take 256 = [(typed ++ name, .file (.text []))] :=
    congrArg (List.take 256) (completions_repeated hname.no_separator 15)
  have hlong : ¬ Text.byteSize (join "r" (typed ++ name)) < 4096 := by omega
  have hnone : [(typed ++ name, DiskNode.file (.text []))].filter (fun e =>
      Text.byteSize (join "r" e.1) < 4096) = [] :=
    List.filter_eq_nil_iff.2 (List.forall_mem_singleton.2 (by simpa using hlong))
  have hwhole : "import ".toList ++ (typed ++ name) ++ [] = line ++ name := by
    rw [List.append_nil, List.append_assoc]
  rw [hone] at hlisting hdisk
  rw [hnone] at hdisk
  exact ⟨hd, hproper, hlookup, hds, hspan, hstraight, hsize,
    hlisting.trans (congrArg (fun t => Reply.answer [t]) hwhole), hdisk⟩

end Source
end ManifestShell
