import ManifestShell.Proofs.RootPattern

/-! Which spellings of a root keep its entries in reach.
What a pattern finds below a root is handed out relative to the root, by taking the text of the root
off the front of a path that the walk has spelled in its own way.  Where that fails, the path is
handed out as it is, and looking it up follows the root a second time. -/
namespace ManifestShell.DiskView

open Disk Glob

variable {d : Disk} {root pattern : Text} {place : List Text}

/-- On every disk, what the pattern finds below the root can be followed from the root again. -/
def InReach (root pattern : Text) : Prop :=
  ∀ (d : Disk) (limit : Nat) (hits : List Text), d.WellFormed → d.isDirectory root = true →
    (DiskView.mk d root).glob pattern limit = .ok hits →
    ∀ p ∈ hits, ∃ next, d.follow (join root p) = .ok next

/-- Followed twice, the root leads where it leads when followed once. -/
def Returns (root : Text) : Prop :=
  ∀ d : Disk, d.WellFormed → d.isDirectory root = true → d.follow (join root root) = d.follow root

/-- Only a relative root whose text was not taken off has to be followed a second time. -/
theorem inReach_of (hp : isAbsolute pattern = false)
    (h : isAbsolute root = false → ∀ (d : Disk) (place paths : List Text) (q : Text), d.WellFormed →
      Leads d root place → d.expand (below root pattern) = .ok paths → q ∈ paths →
      ¬ stem root ++ ['/'] <+: q → ∃ next, d.steps place q = .ok next) : InReach root pattern := by
  intro d limit hits hd hdir hglob p hp'
  obtain ⟨place, hroot⟩ := isDirectory_iff_leads.1 hdir
  obtain ⟨paths, q, he, hq, rfl⟩ := mem_glob hp hglob hp'
  obtain ⟨⟨next, hnext⟩, habs⟩ := hroot.at_hit hd he hq
  rcases handOut_cases hroot.ne_nil hnext.tidy with hjoin | ⟨hstarts, hout⟩
  · exact ⟨next, by rw [hjoin]; exact hnext.follow⟩
  · rw [hout]
    cases hrel : isAbsolute root with
    | true =>
      rw [hrel] at habs
      exact ⟨next, by rw [join, if_pos habs]; exact hnext.follow⟩
    | false =>
      rw [hrel] at habs
      rw [hroot.follow_join habs]
      exact h hrel d place paths q hd hroot he hq hstarts

theorem inReach_of_plain (h : Plain (stem root)) (hne : pattern ≠ [])
    (hp : isAbsolute pattern = false) : InReach root pattern := by
  refine inReach_of hp fun hrel d place paths q hd hroot he hq hstarts => absurd ?_ hstarts
  have hspell : spell ['.'] (rootParts root) = stem root := spell_splitOn h
  rcases hroot.extends hd hrel he hq with ⟨hnil, _⟩ | ⟨next, hext⟩
  · exact absurd hnil hne
  · rw [hspell] at hext
    have htext := (hext.text h.isDot).2
    rwa [h.stem] at htext

/-- The walk does not get past an empty component behind nothing but dots. -/
theorem inReach_of_blocked (h : Blocked root) (hp : isAbsolute pattern = false) :
    InReach root pattern := by
  refine inReach_of hp fun hrel d place paths q hd hroot he hq _ => ?_
  obtain ⟨tokens, _, hmem⟩ := mem_expand_below hroot.ne_nil hrel he hq
  obtain ⟨way, ⟨rest, hparts⟩, hnil⟩ :=
    (exists_spell_eq_nil_iff (fun _ => notMem_of_mem_rootParts)).2 h
  rw [← hparts, List.map_append, List.append_assoc] at hmem
  have hs : ∀ t ∈ way, '/' ∉ t := fun t ht => by
    have hmem : t ∈ rootParts root := hparts ▸ List.mem_append_left rest ht
    exact notMem_of_mem_rootParts hmem
  obtain ⟨⟨next, hnext⟩, _⟩ := walk_exact_parts hd (hroot.at_dot hrel) hs hmem
  exact absurd hnil hnext.tidy.ne_nil

theorem inReach_of_returns (h : Returns root) (hp : isAbsolute pattern = false) :
    InReach root pattern := by
  refine inReach_of hp fun hrel d place paths q hd hroot he hq _ => ?_
  have hagain := h d hd (isDirectory_iff_leads.2 ⟨place, hroot⟩)
  rw [hroot.follow_join hrel, hroot.follow] at hagain
  have hspell : d.steps place (spell ['.'] (rootParts root)) = .ok place := by
    rw [steps_spell_rootParts]
    exact (steps_stem_iff hroot.directory root).2 hagain
  rcases hroot.extends hd hrel he hq with ⟨_, rfl⟩ | ⟨next, hext⟩
  · exact ⟨place, hspell⟩
  · exact ⟨next, hext.steps place hspell⟩

theorem InReach.steps {paths : List Text} {q : Text} (hin : InReach root pattern)
    (hp : isAbsolute pattern = false) (hd : d.WellFormed) (h : Leads d root place)
    (hrel : isAbsolute root = false) (he : d.expand (below root pattern) = .ok paths)
    (hq : q ∈ paths) (hstarts : ¬ stem root ++ ['/'] <+: q) :
    ∃ next, d.steps place q = .ok next := by
  obtain ⟨limit, hits, hglob, hmem⟩ := handOut_mem_glob hp he hq
  obtain ⟨next, hnext⟩ := hin d limit hits hd (isDirectory_iff_leads.2 ⟨place, h⟩) hglob _ hmem
  have hout : handOut root q = q := by
    rw [handOut]
    cases hs : Text.dropStart? (stem root ++ ['/']) q with
    | none => rfl
    | some rest => exact absurd ⟨rest, (Text.dropStart?_eq_some_iff.1 hs).symm⟩ hstarts
  have habs : isAbsolute q = false := (h.at_hit hd he hq).2.trans hrel
  rw [hout, h.follow_join habs] at hnext
  exact ⟨next, hnext⟩

theorem count_rootText (root : Text) :
    (stem root ++ ['/']).count '/' = (rootParts root).length := by
  rw [rootParts, Text.length_splitOn, List.count_append]
  rfl

/-- What the walk spells has fewer separators than a root that is not plain. -/
theorem not_isPrefix_child {name : Text} (h : ¬ Plain (stem root)) (hs : '/' ∉ name) :
    ¬ stem root ++ ['/'] <+: child (spell ['.'] (rootParts root)) name := by
  intro hstarts
  have hcount := hstarts.sublist.count_le '/'
  rw [count_rootText, count_child hs] at hcount
  rw [Plain, not_and_or, not_not, not_not] at h
  exact absurd hcount (Nat.not_le.2 (separators_spell_lt (fun _ => notMem_of_mem_rootParts) h))

theorem not_isPrefix_spell (root : Text) :
    ¬ stem root ++ ['/'] <+: spell ['.'] (rootParts root) := by
  intro hstarts
  have hcount := hstarts.sublist.count_le '/'
  rw [count_rootText] at hcount
  exact absurd hcount (Nat.not_le.2
    (count_spell_lt (fun _ => notMem_of_mem_rootParts) (Text.splitOn_ne_nil '/' _)))

theorem InReach.enter {ts : List Token} {name : Text} (hin : InReach root pattern)
    (hd : d.WellFormed) (h : Leads d root place) (hrel : isAbsolute root = false)
    (hb : ¬ Blocked root) (hplain : ¬ Plain (stem root)) (hs : '/' ∉ name)
    (hpattern : '/' ∉ pattern) (hne : pattern ≠ [])
    (hscan : ∀ fresh pos, scan (.between fresh) pos pattern = .ok ts)
    (hq : child (spell ['.'] (rootParts root)) name ∈
      d.walk [ts] (spell ['.'] (rootParts root))) :
    ∃ next, ((rootParts root).foldlM d.enter place >>= fun again => d.enter again name) =
      .ok next := by
  have hparts : patternParts pattern = [pattern] := by
    simp [patternParts, Text.splitOn_of_notMem hpattern, hne]
  have htokens : (patternParts pattern).mapM Glob.parse = .ok [ts] := by
    rw [hparts, List.mapM_cons, Glob.parse, hscan]
    rfl
  have hlast : (below root pattern).getLast? ≠ some '/' := by
    rw [below, List.append_cons, List.getLast?_append_of_ne_nil _ hne]
    exact fun hl => hpattern (List.mem_of_getLast? hl)
  obtain ⟨paths, he, hmem⟩ :=
    mem_expand_of_mem_walk hd h hrel hb hscan htokens hq (Or.inr hlast)
  obtain ⟨next, hnext⟩ := hin.steps (isAbsolute_of_notMem hpattern) hd h hrel he hmem
    (not_isPrefix_child hplain hs)
  rw [steps_child hs, steps_spell_rootParts] at hnext
  exact ⟨next, hnext⟩

/-- If every pattern stays in reach of a root that is neither plain nor blocked, the root returns:
else an entry made for the purpose is found from it, but not from where a second round ends. -/
theorem returns_of_inReach
    (hin : ∀ pattern, pattern ≠ [] → isAbsolute pattern = false → InReach root pattern)
    (hplain : ¬ Plain (stem root)) (hb : ¬ Blocked root) : Returns root := by
  intro d hd hdir
  obtain ⟨place, h⟩ := isDirectory_iff_leads.1 hdir
  cases hrel : isAbsolute root with
  | true => rw [join, if_pos hrel]
  | false =>
    rw [h.follow_join hrel, h.follow, ← steps_stem_iff h.directory]
    have hfirst := h.foldlM hrel
    obtain ⟨again, hagain⟩ : ∃ again, (rootParts root).foldlM d.enter place = .ok again := by
      obtain ⟨next, hnext⟩ := (hin ['.'] (by decide) (by decide)).enter hd h hrel hb hplain
        (by decide) (by decide) (by decide) (fun _ _ => rfl) (h.mem_walk_dot hd hrel hb)
      cases hs : (rootParts root).foldlM d.enter place with
      | error e => simp [hs, bind, Except.bind] at hnext
      | ok again => exact ⟨again, rfl⟩
    by_cases hcount : (rootParts root).countP isStep = (rootParts root).count ['.', '.']
    · have hplace : again = place := by
        rw [foldl_move_of_foldlM hagain, foldl_move_of_foldlM hfirst, foldl_move_twice hcount]
      exact hplace ▸ hagain
    · exfalso
      obtain ⟨c, hc, hvalid⟩ := exists_fresh h.short
      have hfresh : [c] ∉ rootParts root := fun hm =>
        hc (mem_of_mem_rootParts hm (List.mem_singleton_self c))
      obtain ⟨d', hd', first, second, es, hrun, hrun', hes, hmem, hnot⟩ :=
        exists_disk_apart hvalid hfresh (validName_of_foldlM hd hfirst) hcount
      have hbase : d'.base root = d'.workingDirectory := by simp [base, hrel]
      have h' : Leads d' root first :=
        ⟨h.ne_nil, h.no_nul, h.short, by
          rw [Disk.follow, hbase]
          exact (steps_stem_iff ⟨es, hes⟩ root).1 hrun, es, hes⟩
      obtain ⟨next, hnext⟩ := (hin ['*'] (by decide) (by decide)).enter hd' h' hrel hb hplain
        hvalid.no_separator (by decide) (by decide) (fun _ _ => rfl)
        (h'.mem_walk_entry hd' hrel hb hvalid.no_separator hes hmem)
      rw [hrun'] at hnext
      exact hnot next hnext

/-- The empty pattern finds the root itself. -/
theorem inReach_nil_iff : InReach root [] ↔ Blocked root ∨
    ∀ d : Disk, d.WellFormed → d.isDirectory root = true →
      ∃ next, d.follow (join root (stem root)) = .ok next := by
  have hstem (hrel : isAbsolute root = false) (d : Disk) (place : List Text)
      (h : Leads d root place) : d.follow (join root (stem root)) =
        d.steps place (spell ['.'] (rootParts root)) := by
    rw [h.follow_join (isAbsolute_stem hrel), steps_spell_rootParts]
    rfl
  have htokens : (patternParts []).mapM Glob.parse = .ok [] := rfl
  constructor
  · intro hin
    refine or_iff_not_imp_left.2 fun hb d hd hdir => ?_
    obtain ⟨place, h⟩ := isDirectory_iff_leads.1 hdir
    have hrel : isAbsolute root = false :=
      Bool.eq_false_iff.2 fun habs => hb (blocked_of_isAbsolute habs)
    obtain ⟨paths, he, hmem⟩ := mem_expand_of_mem_walk hd h hrel hb (fun _ _ => rfl) htokens
      (List.mem_singleton_self _) (Or.inl (h.isDirectory_spell hd hrel hb))
    rw [hstem hrel d place h]
    exact hin.steps rfl hd h hrel he hmem (not_isPrefix_spell root)
  · rintro (hb | hagain)
    · exact inReach_of_blocked hb rfl
    · refine inReach_of rfl fun hrel d place paths q hd h he hq _ => ?_
      obtain ⟨next, hnext⟩ := hagain d hd (isDirectory_iff_leads.2 ⟨place, h⟩)
      rw [hstem hrel d place h] at hnext
      obtain ⟨tokens, htokens', _, hmem⟩ := h.mem_walk hd hrel he hq
      obtain rfl : [] = tokens := Except.ok.inj (htokens.symm.trans htokens')
      obtain rfl := List.mem_singleton.1 hmem
      exact ⟨next, hnext⟩

theorem kind_eq_ok_iff_of_mem {limit : Nat} {hits : List Text} {p : Text} (hd : d.WellFormed)
    (hdir : d.isDirectory root = true) (hp : isAbsolute pattern = false)
    (hglob : (DiskView.mk d root).glob pattern limit = .ok hits) (hmem : p ∈ hits) :
    (∃ k, (DiskView.mk d root).kind p = .ok k) ↔
      Text.byteSize (join root p) < 4096 ∧ ∃ next, d.follow (join root p) = .ok next := by
  obtain ⟨place, h⟩ := isDirectory_iff_leads.1 hdir
  obtain ⟨paths, q, he, hq, rfl⟩ := mem_glob hp hglob hmem
  obtain ⟨⟨next, hnext⟩, _⟩ := h.at_hit hd he hq
  have hnul : Char.ofNat 0 ∉ join root (handOut root q) := by
    rcases handOut_cases h.ne_nil hnext.tidy with hjoin | ⟨_, hout⟩
    · rw [hjoin]
      exact hnext.tidy.no_nul
    · rw [hout]
      intro hc
      rcases mem_join hc with hc | hc | hc
      · exact h.no_nul hc
      · exact hnext.tidy.no_nul hc
      · exact absurd hc (by decide)
  have hkind : (∃ k, (DiskView.mk d root).kind (handOut root q) = .ok k) ↔
      ∃ k, d.kind (join root (handOut root q)) = .ok k := by
    unfold DiskView.kind
    cases d.kind (join root (handOut root q)) <;> simp
  rw [hkind, Disk.kind_eq_ok_iff]
  simp [join_ne_nil _ h.ne_nil, hnul]

/-- When what a pattern finds below a root can be looked up from that root.

What is handed out has a kind exactly if its path is short enough and can be followed.  On every
disk and for every pattern but the empty one it can be followed exactly if the root is plain, is
absolute or blocked, or leads back to the same place from where it leads.  The empty pattern finds
the root itself, so that there the root has to be followed twice. -/
theorem hits_in_reach_iff (root : Text) :
    (∀ (d : Disk) (pattern : Text) (limit : Nat) (hits : List Text), d.WellFormed →
      d.isDirectory root = true → isAbsolute pattern = false →
      (DiskView.mk d root).glob pattern limit = .ok hits → ∀ p ∈ hits,
        ((∃ k, (DiskView.mk d root).kind p = .ok k) ↔
          Text.byteSize (join root p) < 4096 ∧ ∃ next, d.follow (join root p) = .ok next)) ∧
    ((∀ pattern, pattern ≠ [] → isAbsolute pattern = false → InReach root pattern) ↔
      Plain (stem root) ∨ Blocked root ∨ Returns root) ∧
    (InReach root [] ↔ Blocked root ∨
      ∀ d : Disk, d.WellFormed → d.isDirectory root = true →
        ∃ next, d.follow (join root (stem root)) = .ok next) := by
  refine ⟨fun d pattern limit hits hd hdir hp hglob p hmem =>
    kind_eq_ok_iff_of_mem hd hdir hp hglob hmem, ⟨fun hin => ?_, ?_⟩, inReach_nil_iff⟩
  · by_cases hplain : Plain (stem root)
    · exact Or.inl hplain
    · exact Or.inr (or_iff_not_imp_left.2 fun hb => returns_of_inReach hin hplain hb)
  · rintro (hplain | hb | hreturns) pattern hne hp
    · exact inReach_of_plain hplain hne hp
    · exact inReach_of_blocked hb hp
    · exact inReach_of_returns hreturns hp

def smallDisk : Disk where
  top := [("dir", .directory [("a.xml", .file (.text []))])]
  workingDirectory := []

theorem smallDisk_wellFormed : smallDisk.WellFormed := by
  have hname (name : Text) (h : name = "dir" ∨ name = "a.xml") : ValidName name := by
    rcases h with rfl | rfl <;> constructor <;> decide +kernel
  refine DiskNode.wellFormed_single (hname _ (Or.inl rfl)) ?_
  exact DiskNode.wellFormed_single (hname _ (Or.inr rfl)) (.file _)

theorem plain_root_resolves :
    (DiskView.mk smallDisk "dir").glob "a*" 5 = .ok ["a.xml"] ∧
      ∃ k, (DiskView.mk smallDisk "dir").kind "a.xml" = .ok k := by
  have hglob : (DiskView.mk smallDisk "dir").glob "a*" 5 = .ok ["a.xml"] := by rfl
  have hdir : smallDisk.isDirectory "dir" = true := by decide +kernel
  have hmain := hits_in_reach_iff "dir"
  have hreach : InReach "dir" "a*" :=
    hmain.2.1.2 (Or.inl (by decide +kernel)) _ (by decide +kernel) (by decide +kernel)
  refine ⟨hglob, (hmain.1 _ _ _ _ smallDisk_wellFormed hdir (by decide +kernel) hglob _
    (List.mem_singleton_self _)).2 ⟨by decide +kernel, ?_⟩⟩
  exact hreach _ _ _ smallDisk_wellFormed hdir hglob _ (List.mem_singleton_self _)

/-- With a dot in front the same file is handed out under a path that has no kind. -/
theorem dotted_root_out_of_reach :
    smallDisk.WellFormed ∧ smallDisk.isDirectory "./dir" = true ∧
      (DiskView.mk smallDisk "./dir").glob "a*" 5 = .ok ["dir/a.xml"] ∧
      (DiskView.mk smallDisk "./dir").kind "dir/a.xml" =
        .error (.entry "dir/a.xml" (OsError.message .noEntry)) ∧
      (DiskView.mk smallDisk "./dir").kind "a.xml" = .ok .file :=
  ⟨smallDisk_wellFormed, by decide +kernel, by rfl, by rfl, by rfl⟩

end ManifestShell.DiskView
