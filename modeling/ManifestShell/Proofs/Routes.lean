import ManifestShell.Proofs.Spelling
import ManifestShell.Proofs.TypedPaths

/-! Walking along names.
Where every part but the last is a fixed name, the walk follows one route: it comes to the node that
the names lead to, if the node is there and its path is not too long, and gets stuck otherwise.  At
the end of the route a part for the names with a given beginning yields the entries with such names,
in their order in the directory. -/
namespace ManifestShell.Disk

open Glob

variable {d : Disk} {place next : List Text} {path name t : Text} {names : List Text}
  {n m : DiskNode} {rest : List (List Token)}

/-! ### How a route is spelled -/

theorem child_eq (hne : path ≠ []) (hdot : isDot path = false) (hs : '/' ∉ name) :
    child path name = stem path ++ '/' :: name := by
  rw [child, if_neg (by simp [hdot]), join_eq hne (isAbsolute_of_notMem hs)]

theorem byteSize_le_child (hne : path ≠ []) (hdot : isDot path = false) (hs : '/' ∉ name) :
    Text.byteSize path ≤ Text.byteSize (child path name) := by
  have hslash : Text.byteSize ('/' :: name) = 1 + Text.byteSize name := rfl
  rw [child_eq hne hdot hs, Text.byteSize_append, hslash]
  rcases eq_stem_or path with ⟨hp, _⟩ | hp
  · rw [← hp]
    omega
  · have hp' := congrArg Text.byteSize hp
    rw [Text.byteSize_append] at hp'
    have hone : Text.byteSize ['/'] = 1 := rfl
    omega

theorem isDot_child (hne : path ≠ []) (hdot : isDot path = false) (hs : '/' ∉ name) :
    isDot (child path name) = false := by
  rw [child, if_neg (by simp [hdot])]
  exact isDot_join hne hs hdot

theorem child_ne_nil_of_path (hne : path ≠ []) (hdot : isDot path = false) (hs : '/' ∉ name) :
    child path name ≠ [] := by
  rw [child_eq hne hdot hs]
  simp

theorem isDot_spell (hne : path ≠ []) (hdot : isDot path = false) (hs : ∀ c ∈ names, '/' ∉ c) :
    isDot (spell path names) = false := by
  induction names generalizing path with
  | nil => exact hdot
  | cons c names ih =>
    obtain ⟨hc, hrest⟩ := List.forall_mem_cons.1 hs
    exact ih (child_ne_nil_of_path hne hdot hc) (isDot_child hne hdot hc) hrest

theorem byteSize_le_spell (hne : path ≠ []) (hdot : isDot path = false)
    (hs : ∀ c ∈ names, '/' ∉ c) : Text.byteSize path ≤ Text.byteSize (spell path names) := by
  induction names generalizing path with
  | nil => exact Nat.le_refl _
  | cons c names ih =>
    obtain ⟨hc, hrest⟩ := List.forall_mem_cons.1 hs
    have hchild := child_ne_nil_of_path hne hdot hc
    calc
      Text.byteSize path ≤ Text.byteSize (child path c) := byteSize_le_child hne hdot hc
      _ ≤ Text.byteSize (spell path (c :: names)) := ih hchild (isDot_child hne hdot hc) hrest

theorem child_spell (hne : path ≠ []) (hdot : isDot path = false)
    (hs : ∀ c ∈ names, c ≠ [] ∧ '/' ∉ c) (hname : '/' ∉ name) :
    child (spell path names) name = stem path ++ '/' :: (Text.leadOf '/' names ++ name) := by
  induction names generalizing path with
  | nil => exact child_eq hne hdot hname
  | cons c names ih =>
    obtain ⟨⟨hcne, hc⟩, hrest⟩ := List.forall_mem_cons.1 hs
    have hchild : child path c ≠ [] := child_ne_nil path hcne
    rw [spell_cons, ih hchild (isDot_child hne hdot hc) hrest, child_eq hne hdot hc,
      stem_append_cons _ hc hcne, Text.leadOf_cons]
    simp

/-! ### Routes through a tree -/

theorem node?_append (h : d.node? place = some n) (names : List Text) :
    d.node? (place ++ names) = DiskNode.find? names n := by
  rw [node?, find?_append, ← node?, h]
  rfl

theorem directory_of_find? (h : DiskNode.find? [name] n = some m) : n = .directory n.entries := by
  cases n with
  | file content => cases h
  | directory es => rfl

theorem at_child (hd : d.WellFormed) (hp : At d path place) (hn : d.node? place = some n)
    (hm : DiskNode.find? [name] n = some m) : At d (child path name) (place ++ [name]) := by
  have hdir := directory_of_find? hm
  rw [DiskNode.find?_name] at hm
  exact (extends_entry hd hp (hn.trans (congrArg some hdir))
    (Entries.find?_isSome_iff.1 (by rw [hm]; rfl))).at hp

theorem at_spell (hd : d.WellFormed) (hp : At d path place) (hn : d.node? place = some n)
    (hm : DiskNode.find? names n = some m) : At d (spell path names) (place ++ names) := by
  induction names generalizing path place n with
  | nil => simpa [spell] using hp
  | cons c names ih =>
    rw [← List.singleton_append, find?_append] at hm
    obtain ⟨k, hk, hrest⟩ := Option.bind_eq_some_iff.1 hm
    have hnext : d.node? (place ++ [c]) = some k := (node?_append hn [c]).trans hk
    have hat := ih (at_child hd hp hn hk) hnext hrest
    rwa [List.append_assoc] at hat

/-- A component that is neither empty nor a dot or two. -/
structure Proper (c : Text) : Prop where
  ne_nil : c ≠ []
  ne_dot : c ≠ ['.']
  ne_dots : c ≠ ['.', '.']
  no_separator : '/' ∉ c

theorem present_iff (hd : d.WellFormed) (hp : At d path place) (hn : d.node? place = some n)
    (hname : Proper name) : d.present path name = true ↔
      (DiskNode.find? [name] n).isSome ∧ Text.byteSize (child path name) < 4096 := by
  rw [present, if_neg (by simp [hname.ne_dot, hname.ne_dots]), exists?_iff]
  constructor
  · rintro ⟨_, _, hsize, next, hfollow⟩
    have hbase : d.base (child path name) = d.base path := by
      simp [base, isAbsolute_child hname.no_separator path]
    rw [Disk.follow, hbase, steps_child hname.no_separator, ← Disk.follow, hp.follow] at hfollow
    obtain ⟨es, hes, ⟨h, _⟩ | ⟨h, _⟩ | ⟨hfind, _⟩⟩ := enter_eq_ok hfollow
    · exact absurd h (by simp [hname.ne_nil, hname.ne_dot])
    · exact absurd h hname.ne_dots
    · obtain rfl : n = .directory es := Option.some.inj (hn.symm.trans hes)
      exact ⟨by rwa [DiskNode.find?_name], hsize⟩
  · rintro ⟨hfind, hsize⟩
    obtain ⟨m, hm⟩ := Option.isSome_iff_exists.1 hfind
    have hat := at_child hd hp hn hm
    exact ⟨hat.tidy.ne_nil, hat.tidy.no_nul, hsize, _, hat.follow⟩

theorem literal?_chars (t : Text) : literal? (t.map .char) = some t := by
  induction t with
  | nil => rfl
  | cons c t ih => simp [literal?, ih]

theorem walk_names (hd : d.WellFormed) (hp : At d path place) (hn : d.node? place = some n)
    (hsize : Text.byteSize path < 4096) (hdot : isDot path = false)
    (hnames : ∀ c ∈ names, Proper c) (rest : List (List Token)) :
    d.walk (names.map (List.map .char) ++ rest) path =
      if (DiskNode.find? names n).isSome ∧ Text.byteSize (spell path names) < 4096 then
        d.walk rest (spell path names)
      else [] := by
  induction names generalizing path place n with
  | nil => simp [DiskNode.find?, spell, hsize]
  | cons c names ih =>
    obtain ⟨hc, hrest⟩ := List.forall_mem_cons.1 hnames
    have hfind : DiskNode.find? (c :: names) n =
        (DiskNode.find? [c] n).bind (DiskNode.find? names) := by
      rw [← List.singleton_append, find?_append]
    have hchild : child path c ≠ [] := child_ne_nil path hc.ne_nil
    have hchildDot := isDot_child hp.tidy.ne_nil hdot hc.no_separator
    have hpresent := present_iff hd hp hn hc
    rw [List.map_cons, List.cons_append, walk_literal (literal?_chars c), hfind, spell_cons]
    by_cases hthere : d.present path c = true
    · obtain ⟨hsome, hshort⟩ := hpresent.1 hthere
      obtain ⟨k, hk⟩ := Option.isSome_iff_exists.1 hsome
      rw [if_pos hthere, hk, Option.bind_some]
      exact ih (at_child hd hp hn hk) ((node?_append hn [c]).trans hk) hshort hchildDot hrest
    · rw [if_neg hthere, if_neg]
      rintro ⟨hsome, hshort⟩
      refine hthere (hpresent.2 ⟨Option.isSome_of_isSome_bind hsome, ?_⟩)
      exact lt_of_le_of_lt (byteSize_le_spell hchild hchildDot fun x hx =>
        (hrest x hx).no_separator) hshort

/-! ### The end of a route -/

variable {last : Text}

theorem matchesText_beginning (hs : '/' ∉ name) :
    matchesText (last.map .char ++ [.anyRun]) name = true ↔ last.isPrefixOf name = true := by
  rw [matchesText_chars, List.isPrefixOf_iff_prefix]
  constructor
  · rintro ⟨y, rfl, _⟩
    exact List.prefix_append last y
  · rintro ⟨y, rfl⟩
    exact ⟨y, rfl, matchesText_run_iff.2 fun hy => hs (List.mem_append_right _ hy)⟩

/-- The dot directories are matched by a beginning of them only. -/
theorem dotEntries_beginning (hdot : last ≠ ['.']) (hdots : last ≠ ['.', '.']) :
    dotEntries (last.map .char ++ [.anyRun]) path = [] := by
  by_cases hnil : last = []
  · simp [dotEntries, hnil]
  have hnone : [['.', '.'], ['.']].filter (matchesText (last.map .char ++ [.anyRun])) = [] := by
    refine List.filter_eq_nil_iff.2 fun x hx hmatch => ?_
    obtain ⟨y, hy, _⟩ := matchesText_chars.1 hmatch
    have hpre : last <+: ['.', '.'] := by
      have hspecial : x = ['.', '.'] ∨ x = ['.'] := by simpa using hx
      rcases hspecial with rfl | rfl
      · exact ⟨y, hy.symm⟩
      · exact (show last <+: ['.'] from ⟨y, hy.symm⟩).trans (List.prefix_append ['.'] ['.'])
    have hcases : last ∈ [[], ['.'], ['.', '.']] := by simpa using (List.mem_inits _ _).2 hpre
    simp [hnil, hdot, hdots] at hcases
  rw [dotEntries, hnone, List.map_nil, ite_self]

theorem literal?_beginning (last : Text) : literal? (last.map .char ++ [.anyRun]) = none := by
  induction last with
  | nil => rfl
  | cons c last ih => simp [literal?, ih]

theorem beginning_ne (last : Text) :
    last.map Token.char ++ [.anyRun] ≠ [.anyComponents] := by
  cases last <;> simp

theorem walk_beginning (hd : d.WellFormed) (hp : At d path place) (hn : d.node? place = some n)
    (hsize : Text.byteSize path < 4096) (hdot : last ≠ ['.']) (hdots : last ≠ ['.', '.'])
    (rest : List (List Token)) :
    d.walk ((last.map .char ++ [.anyRun]) :: rest) path =
      (n.entries.filter fun e => last.isPrefixOf e.1).flatMap fun e =>
        d.walk rest (child path e.1) := by
  have hlookup := hp.lookup_eq hn hsize
  rw [walk_wild (beginning_ne last) (literal?_beginning last), isDirectory_of_lookup hlookup,
    names_of_lookup hlookup, dotEntries_beginning hdot hdots]
  cases n with
  | file content => rfl
  | directory es =>
    cases hd.node? hn with
    | directory _ hvalid _ =>
      have hmatch : ∀ e ∈ es, (matchesText (last.map .char ++ [.anyRun]) e.1 = true) =
          (last.isPrefixOf e.1 = true) := fun e he =>
        propext (matchesText_beginning (hvalid e he).no_separator)
      change ([].flatMap _ ++ (es.map Prod.fst).flatMap _) = _
      rw [List.flatMap_nil, List.nil_append, List.flatMap_map, DiskNode.entries, ← flatMap_ite]
      exact List.flatMap_congr fun e he => by simp only [hmatch e he]

theorem walk_any_of_empty (hp : At d path place) (hn : d.node? place = some n)
    (hempty : n.entries = []) : d.walk [[.anyComponents]] path = [] := by
  have hbelow : d.below path = [] := by
    unfold below
    split
    · rename_i k hk
      obtain rfl : n = k := Option.some.inj (hn.symm.trans (hp.lookup hk))
      cases n with
      | file content => rfl
      | directory es =>
        obtain rfl : es = [] := hempty
        rfl
    · rfl
  rw [walk.eq_def]
  simp [hbelow]

end ManifestShell.Disk
