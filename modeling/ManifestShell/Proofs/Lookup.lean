import Mathlib.Data.List.Infix
import ManifestShell.Files
import ManifestShell.Proofs.Segments
import ManifestShell.Proofs.Tables

/-! Following paths on a disk.
A path is followed one component at a time.  Putting a name behind a path adds one step to it,
however the path is spelled: empty components and single dots change the text but not the place. -/
namespace ManifestShell

/-- The names that an entry of a directory can have. -/
structure ValidName (name : Text) : Prop where
  ne_nil : name ≠ []
  ne_dot : name ≠ ['.']
  ne_dots : name ≠ ['.', '.']
  no_separator : '/' ∉ name
  no_nul : Char.ofNat 0 ∉ name
  short : Text.byteSize name ≤ 255

/-- A tree as an operating system keeps it: valid names, each once in a directory. -/
inductive DiskNode.WellFormed : DiskNode → Prop
  | file (content : Content) : WellFormed (.file content)
  | directory {es : List (Text × DiskNode)} (ascending : Entries.Ascending es)
      (valid : ∀ e ∈ es, ValidName e.1) (below : ∀ e ∈ es, WellFormed e.2) :
      WellFormed (.directory es)

namespace DiskNode

variable {n : DiskNode}

def entries : DiskNode → List (Text × DiskNode)
  | file _ => []
  | directory es => es

theorem wellFormed_single {name : Text} (hname : ValidName name) (h : n.WellFormed) :
    (directory [(name, n)]).WellFormed := by
  refine .directory (List.pairwise_singleton _ _) ?_ ?_
  · rwa [List.forall_mem_singleton]
  · rwa [List.forall_mem_singleton]

theorem wellFormed_entries (h : n.WellFormed) : (directory n.entries).WellFormed := by
  cases h with
  | file content => exact .directory List.Pairwise.nil (by simp [entries]) (by simp [entries])
  | directory hasc hvalid hbelow => exact .directory hasc hvalid hbelow

theorem find?_name (name : Text) (n : DiskNode) :
    find? [name] n = Entries.find? name n.entries := by
  cases n with
  | file content => rfl
  | directory es => cases h : Entries.find? name es <;> simp [find?, entries, h]

theorem find?_file {names : List Text} (content : Content) (h : names ≠ []) :
    find? names (file content) = none := by
  cases names with
  | nil => exact absurd rfl h
  | cons name names => rfl

end DiskNode

namespace Disk

def WellFormed (d : Disk) : Prop := (DiskNode.directory d.top).WellFormed

variable {d : Disk}

theorem find?_wellFormed {n m : DiskNode} {names : List Text} (hn : n.WellFormed)
    (h : DiskNode.find? names n = some m) : m.WellFormed := by
  induction names generalizing n with
  | nil =>
    obtain rfl : n = m := by simpa [DiskNode.find?] using h
    exact hn
  | cons name names ih =>
    cases hn with
    | file content => simp [DiskNode.find?] at h
    | directory _ _ hb =>
      obtain ⟨k, hk, hm⟩ := Option.bind_eq_some_iff.1 h
      exact ih (hb _ (Entries.mem_of_find? hk)) hm

theorem validName_of_find? {n m : DiskNode} {names : List Text} (hn : n.WellFormed)
    (hm : DiskNode.find? names n = some m) : ∀ c ∈ names, ValidName c := by
  induction names generalizing n with
  | nil => simp
  | cons c names ih =>
    cases hn with
    | file content => cases hm
    | directory _ hvalid hbelow =>
      obtain ⟨k, hk, hrest⟩ := Option.bind_eq_some_iff.1 hm
      have hmem := Entries.mem_of_find? hk
      exact List.forall_mem_cons.2 ⟨hvalid _ hmem, ih (hbelow _ hmem) hrest⟩

theorem WellFormed.node? {names : List Text} {n : DiskNode} (hd : d.WellFormed)
    (h : d.node? names = some n) : n.WellFormed := find?_wellFormed hd h

theorem find?_append (n : DiskNode) (names names' : List Text) :
    DiskNode.find? (names ++ names') n = (DiskNode.find? names n).bind (DiskNode.find? names') := by
  induction names generalizing n with
  | nil => simp [DiskNode.find?]
  | cons name names ih =>
    cases n with
    | file content => simp [DiskNode.find?]
    | directory es =>
      rw [List.cons_append, DiskNode.find?, DiskNode.find?, Option.bind_assoc]
      exact Option.bind_congr fun m _ => ih m

theorem node?_concat {place : List Text} {es : List (Text × DiskNode)} (name : Text)
    (h : d.node? place = some (.directory es)) :
    d.node? (place ++ [name]) = Entries.find? name es := by
  rw [node?] at h ⊢
  rw [find?_append, h]
  cases hn : Entries.find? name es <;> simp [DiskNode.find?, hn]

theorem node?_dropLast {place : List Text} {n : DiskNode} (h : d.node? place = some n) :
    ∃ m, d.node? place.dropLast = some m := by
  rcases List.eq_nil_or_concat place with rfl | ⟨init, name, rfl⟩
  · exact ⟨n, h⟩
  · rw [node?, List.concat_eq_append, find?_append] at h
    obtain ⟨m, hm, _⟩ := Option.bind_eq_some_iff.1 h
    exact ⟨m, by simpa [node?] using hm⟩

theorem enter_eq_ok {place next : List Text} {component : Text}
    (h : d.enter place component = .ok next) :
    ∃ es, d.node? place = some (.directory es) ∧
      ((component = [] ∨ component = ['.']) ∧ next = place ∨
        component = ['.', '.'] ∧ next = place.dropLast ∨
        (Entries.find? component es).isSome ∧ Text.byteSize component ≤ 255 ∧
          component ≠ [] ∧ component ≠ ['.'] ∧ component ≠ ['.', '.'] ∧
          next = place ++ [component]) := by
  unfold enter at h
  split at h
  · simp at h
  · simp at h
  · rename_i es hes
    refine ⟨es, hes, ?_⟩
    split_ifs at h with h₁ h₂ h₃ h₄
    · exact Or.inl ⟨h₁, by simpa using h.symm⟩
    · exact Or.inr (Or.inl ⟨h₂, by simpa using h.symm⟩)
    · rw [not_or] at h₁
      exact Or.inr (Or.inr ⟨h₄, Nat.le_of_not_lt h₃, h₁.1, h₁.2, h₂, by simpa using h.symm⟩)

theorem enter_stay {place : List Text} {es : List (Text × DiskNode)} {component : Text}
    (h : d.node? place = some (.directory es)) (hc : component = [] ∨ component = ['.']) :
    d.enter place component = .ok place := by
  simp [enter, h, hc]

theorem enter_up {place : List Text} {es : List (Text × DiskNode)}
    (h : d.node? place = some (.directory es)) : d.enter place ['.', '.'] = .ok place.dropLast := by
  simp [enter, h]

theorem enter_name {place : List Text} {es : List (Text × DiskNode)} {name : Text}
    (h : d.node? place = some (.directory es)) (hn : ValidName name)
    (hm : name ∈ es.map Prod.fst) : d.enter place name = .ok (place ++ [name]) := by
  have hlong : ¬ 255 < Text.byteSize name := Nat.not_lt.2 hn.short
  simp [enter, h, hn.ne_nil, hn.ne_dot, hn.ne_dots, hlong, Entries.find?_isSome_iff.2 hm]

theorem exists_node_of_enter {place next : List Text} {component : Text}
    (h : d.enter place component = .ok next) : ∃ n, d.node? next = some n := by
  obtain ⟨es, hes, ⟨_, rfl⟩ | ⟨_, rfl⟩ | ⟨hf, _, _, _, _, rfl⟩⟩ := enter_eq_ok h
  · exact ⟨_, hes⟩
  · exact node?_dropLast hes
  · rw [node?_concat component hes]
    exact Option.isSome_iff_exists.1 hf

/-- Staying first makes no difference to a step, not even to the way it fails. -/
theorem enter_stay_bind {component : Text} (hc : component = [] ∨ component = ['.'])
    (place : List Text) (name : Text) :
    (d.enter place component >>= fun next => d.enter next name) = d.enter place name := by
  cases h : d.node? place with
  | none => simp [enter, h, bind, Except.bind]
  | some n =>
    cases n with
    | file content => simp [enter, h, bind, Except.bind]
    | directory es =>
      rw [enter_stay h hc]
      rfl

theorem foldlM_cons_eq_ok {component : Text} {components : List Text} {place last : List Text}
    (h : (component :: components).foldlM d.enter place = .ok last) :
    ∃ next, d.enter place component = .ok next ∧ components.foldlM d.enter next = .ok last := by
  rw [List.foldlM_cons] at h
  cases hc : d.enter place component with
  | error e => simp [hc, bind, Except.bind] at h
  | ok next =>
    rw [hc] at h
    exact ⟨next, rfl, h⟩

def steps (d : Disk) (place : List Text) (path : Text) : Except OsError (List Text) :=
  (Text.splitOn '/' path).foldlM d.enter place

/-- The place that a path leads to; the look-up of an operating system without its restrictions on
the text of the path. -/
def follow (d : Disk) (path : Text) : Except OsError (List Text) := d.steps (d.base path) path

theorem steps_of_notMem {name : Text} (h : '/' ∉ name) (place : List Text) :
    d.steps place name = d.enter place name := by
  simp [steps, Text.splitOn_of_notMem h]

theorem steps_append_cons (place : List Text) (path rest : Text) :
    d.steps place (path ++ '/' :: rest) =
      d.steps place path >>= fun next => d.steps next rest := by
  simp only [steps, Text.splitOn_append_cons, List.foldlM_append]

theorem isAbsolute_of_notMem {name : Text} (h : '/' ∉ name) : isAbsolute name = false := by
  cases name with
  | nil => rfl
  | cons c name =>
    have hc : c ≠ '/' := fun hc => h (hc ▸ List.mem_cons_self)
    simp [isAbsolute, hc]

theorem steps_join {name : Text} (h : '/' ∉ name) (place : List Text) (path : Text) :
    d.steps place (join path name) = d.steps place path >>= fun next => d.enter next name := by
  have habs := isAbsolute_of_notMem h
  rcases List.eq_nil_or_concat path with rfl | ⟨init, c, rfl⟩
  · simp only [join, habs, List.isEmpty_nil, true_or, if_true, Bool.false_eq_true, if_false,
      List.nil_append]
    rw [steps_of_notMem h, steps_of_notMem (List.not_mem_nil), enter_stay_bind (Or.inl rfl)]
  · rw [List.concat_eq_append]
    by_cases hc : c = '/'
    · subst hc
      have hj : join (init ++ ['/']) name = init ++ '/' :: name := by simp [join, habs]
      rw [hj, steps_append_cons, steps_append_cons, bind_assoc]
      refine bind_congr fun next => ?_
      rw [steps_of_notMem h, steps_of_notMem (List.not_mem_nil), enter_stay_bind (Or.inl rfl)]
    · have hj : join (init ++ [c]) name = (init ++ [c]) ++ '/' :: name := by
        simp [join, habs, hc]
      rw [hj, steps_append_cons]
      exact bind_congr fun next => steps_of_notMem h next

/-- A spelling of the working directory is a dot with nothing but dots and empty components behind
it. -/
theorem isDot_iff {path : Text} :
    isDot path = true ↔
      ∃ rest, Text.splitOn '/' path = ['.'] :: rest ∧ ∀ c ∈ rest, c = [] ∨ c = ['.'] := by
  have hkeep (parts : List Text) :
      (parts.filter fun p => decide (p ≠ [] ∧ p ≠ ['.'])) = [] ↔
        ∀ c ∈ parts, c = [] ∨ c = ['.'] := by
    simp only [List.filter_eq_nil_iff, decide_eq_true_eq, not_and_or, not_not]
  simp only [isDot, components, beq_iff_eq]
  split
  · rename_i rest hp
    rw [hp, List.cons.injEq, hkeep]
    simp
  · rename_i parts hp
    constructor
    · intro h
      have hmem := h ▸ List.mem_singleton_self ['.']
      simp at hmem
    · rintro ⟨rest, hrest, _⟩
      exact absurd hrest (hp rest)

theorem foldlM_stay_bind {parts : List Text} (h : ∀ c ∈ parts, c = [] ∨ c = ['.'])
    (place : List Text) (name : Text) :
    (parts.foldlM d.enter place >>= fun next => d.enter next name) = d.enter place name := by
  induction parts generalizing place with
  | nil => rfl
  | cons c parts ih =>
    have hc : c = [] ∨ c = ['.'] := h c List.mem_cons_self
    have hparts : ∀ c ∈ parts, c = [] ∨ c = ['.'] := fun c hc => h c (List.mem_cons_of_mem _ hc)
    rw [List.foldlM_cons, bind_assoc]
    calc
      (d.enter place c >>= fun next => parts.foldlM d.enter next >>= fun next => d.enter next name)
          = d.enter place c >>= fun next => d.enter next name :=
            bind_congr fun next => ih hparts next
      _ = d.enter place name := enter_stay_bind hc place name

theorem steps_child {name : Text} (h : '/' ∉ name) (place : List Text) (path : Text) :
    d.steps place (child path name) = d.steps place path >>= fun next => d.enter next name := by
  unfold child
  split_ifs with hdot
  · obtain ⟨rest, hp, hrest⟩ := isDot_iff.1 hdot
    rw [steps_of_notMem h, steps, hp]
    refine (foldlM_stay_bind (fun c hc => ?_) place name).symm
    rcases List.mem_cons.1 hc with rfl | hc
    · exact Or.inr rfl
    · exact hrest c hc
  · exact steps_join h place path

theorem isAbsolute_join {next : Text} (h : isAbsolute next = false) (path : Text) :
    isAbsolute (join path next) = isAbsolute path := by
  cases path with
  | nil =>
    have hj : join [] next = next := by simp [join, h]
    rw [hj, h]
    rfl
  | cons c path =>
    unfold join
    split_ifs <;> simp_all [isAbsolute]

theorem isAbsolute_child {name : Text} (h : '/' ∉ name) (path : Text) :
    isAbsolute (child path name) = isAbsolute path := by
  unfold child
  split_ifs with hdot
  · obtain ⟨rest, hp, _⟩ := isDot_iff.1 hdot
    have hne : isAbsolute path = false := by
      cases path with
      | nil => rfl
      | cons c path =>
        by_cases hc : c = '/'
        · simp [Text.splitOn, hc] at hp
        · simp [isAbsolute, hc]
    rw [isAbsolute_of_notMem h, hne]
  · exact isAbsolute_join (isAbsolute_of_notMem h) path

theorem mem_join {path name : Text} {c : Char} (hc : c ∈ join path name) :
    c ∈ path ∨ c ∈ name ∨ c = '/' := by
  unfold join at hc
  split_ifs at hc
  · exact Or.inr (Or.inl hc)
  · exact (List.mem_append.1 hc).imp_right Or.inl
  · rcases List.mem_append.1 hc with hc | hc
    · exact Or.inl hc
    · exact Or.inr ((List.mem_cons.1 hc).symm)

/-- A path without the separator at its end. -/
def stem (path : Text) : Text := if path.getLast? = some '/' then path.dropLast else path

theorem stem_concat (before : Text) : stem (before ++ ['/']) = before := by
  simp [stem]

theorem stem_of_getLast? {path : Text} (h : path.getLast? ≠ some '/') : stem path = path := by
  simp [stem, h]

theorem eq_stem_or (path : Text) :
    path = stem path ∧ path.getLast? ≠ some '/' ∨ path = stem path ++ ['/'] := by
  by_cases h : path.getLast? = some '/'
  · obtain ⟨before, rfl⟩ := List.getLast?_eq_some_iff.1 h
    rw [stem_concat]
    exact Or.inr rfl
  · exact Or.inl ⟨(stem_of_getLast? h).symm, h⟩

theorem isAbsolute_stem {path : Text} (h : isAbsolute path = false) :
    isAbsolute (stem path) = false := by
  rcases eq_stem_or path with ⟨hp, _⟩ | hp
  · rwa [← hp]
  · cases hs : stem path with
    | nil => rfl
    | cons c s =>
      rw [hp, hs] at h
      exact h

theorem join_eq {path next : Text} (hne : path ≠ []) (h : isAbsolute next = false) :
    join path next = stem path ++ '/' :: next := by
  rcases eq_stem_or path with ⟨hp, hlast⟩ | hp
  · rw [← hp]
    simp [join, h, hne, hlast]
  · rw [hp, stem_concat]
    simp [join, h]

theorem stem_append_cons {name : Text} (before : Text) (hs : '/' ∉ name) (hne : name ≠ []) :
    stem (before ++ '/' :: name) = before ++ '/' :: name := by
  refine stem_of_getLast? fun hl => ?_
  rw [List.append_cons, List.getLast?_append_of_ne_nil _ hne] at hl
  exact hs (List.mem_of_getLast? hl)

/-- The text of a path that the walk may come to: not empty, without the character that ends a text,
and with no two separators in a row. -/
structure Tidy (path : Text) : Prop where
  ne_nil : path ≠ []
  no_nul : Char.ofNat 0 ∉ path
  inner : [] ∉ (Text.splitOn '/' (stem path)).tail

theorem inner_join {path name : Text} (hne : path ≠ [])
    (hp : [] ∉ (Text.splitOn '/' (stem path)).tail) (hs : '/' ∉ name) :
    [] ∉ (Text.splitOn '/' (stem (join path name))).tail := by
  rw [join_eq hne (isAbsolute_of_notMem hs)]
  by_cases hn : name = []
  · rw [hn, stem_concat]
    exact hp
  · rw [stem_append_cons _ hs hn, Text.splitOn_append_cons, Text.splitOn_of_notMem hs,
      List.tail_append_of_ne_nil (Text.splitOn_ne_nil '/' _), List.mem_append, List.mem_singleton]
    exact not_or.2 ⟨hp, fun h => hn h.symm⟩

theorem join_ne_nil {path : Text} (name : Text) (h : path ≠ []) : join path name ≠ [] := by
  unfold join
  split_ifs with habs <;> simp_all [isAbsolute]
  rintro rfl
  simp at habs

theorem tidy_join {path name : Text} (hp : Tidy path) (hs : '/' ∉ name)
    (hn : Char.ofNat 0 ∉ name) : Tidy (join path name) where
  ne_nil := join_ne_nil name hp.ne_nil
  no_nul := fun hc => by
    rcases mem_join hc with hc | hc | hc
    · exact hp.no_nul hc
    · exact hn hc
    · exact absurd hc (by decide)
  inner := inner_join hp.ne_nil hp.inner hs

theorem tidy_child {path name : Text} (hp : Tidy path) (hs : '/' ∉ name)
    (hn : Char.ofNat 0 ∉ name) (hne : child path name ≠ []) : Tidy (child path name) := by
  unfold child at hne ⊢
  split_ifs at hne ⊢
  · have hlast : name.getLast? ≠ some '/' := fun hl => hs (List.mem_of_getLast? hl)
    exact ⟨hne, hn, by simp [stem_of_getLast? hlast, Text.splitOn_of_notMem hs]⟩
  · exact tidy_join hp hs hn

theorem Tidy.isAbsolute_rest {before rest : Text} (h : Tidy (before ++ '/' :: rest)) :
    isAbsolute rest = false := by
  cases rest with
  | nil => rfl
  | cons c rest =>
    by_contra habs
    obtain rfl : c = '/' := by simpa [isAbsolute] using habs
    have hsplit : Text.splitOn '/' (before ++ '/' :: '/' :: rest) =
        Text.splitOn '/' before ++ [] :: Text.splitOn '/' rest := Text.splitOn_append_cons _ _ _
    have hstem : ∃ more, Text.splitOn '/' (stem (before ++ '/' :: '/' :: rest)) =
        Text.splitOn '/' before ++ [] :: more := by
      rcases eq_stem_or (before ++ '/' :: '/' :: rest) with ⟨hs, _⟩ | hs
      · exact ⟨_, hs ▸ hsplit⟩
      · refine ⟨(Text.splitOn '/' rest).dropLast, ?_⟩
        rw [hs, Text.splitOn_append_cons] at hsplit
        have hdrop := congrArg List.dropLast hsplit
        rwa [Text.splitOn, List.dropLast_concat, List.dropLast_append_of_ne_nil (by simp),
          List.dropLast_cons_of_ne_nil (Text.splitOn_ne_nil '/' rest)] at hdrop
    obtain ⟨more, hmore⟩ := hstem
    apply h.inner
    rw [hmore, List.tail_append_of_ne_nil (Text.splitOn_ne_nil '/' before)]
    simp

theorem locate_eq_ok_iff {path : Text} {place : List Text} :
    d.locate path = .ok place ↔ path ≠ [] ∧ Char.ofNat 0 ∉ path ∧ Text.byteSize path < 4096 ∧
      d.follow path = .ok place := by
  unfold locate
  split_ifs with h₁ h₂ h₃
  · simp_all
  · simp_all
  · simp [Nat.not_lt.2 h₃]
  · have hne : path ≠ [] := by simpa using h₁
    have hnul : Char.ofNat 0 ∉ path := by simpa using h₂
    simp [hne, hnul, Nat.lt_of_not_le h₃, follow, steps]

/-- A path can be looked up exactly if it leads somewhere and its text is acceptable. -/
theorem lookup_eq_ok_iff {path : Text} {n : DiskNode} :
    d.lookup path = .ok n ↔ path ≠ [] ∧ Char.ofNat 0 ∉ path ∧ Text.byteSize path < 4096 ∧
      ∃ place, d.follow path = .ok place ∧ d.node? place = some n := by
  have hlook : d.lookup path = .ok n ↔
      ∃ place, d.locate path = .ok place ∧ d.node? place = some n := by
    unfold lookup
    cases hl : d.locate path with
    | error e => simp [bind, Except.bind]
    | ok place => cases hn : d.node? place <;> simp [bind, Except.bind, hn]
  simp only [hlook, locate_eq_ok_iff, and_assoc, exists_and_left]

theorem exists_node_of_steps {place next : List Text} {path : Text}
    (h : d.steps place path = .ok next) : ∃ n, d.node? next = some n := by
  rw [steps, ← List.dropLast_concat_getLast (Text.splitOn_ne_nil '/' path),
    List.foldlM_append] at h
  simp only [List.foldlM_cons, List.foldlM_nil, bind_pure] at h
  cases hm : (Text.splitOn '/' path).dropLast.foldlM d.enter place with
  | error e => simp [hm, bind, Except.bind] at h
  | ok mid =>
    rw [hm] at h
    exact exists_node_of_enter h

theorem kind_eq_ok_iff {path : Text} :
    (∃ k, d.kind path = .ok k) ↔ path ≠ [] ∧ Char.ofNat 0 ∉ path ∧ Text.byteSize path < 4096 ∧
      ∃ place, d.follow path = .ok place := by
  have hkind : (∃ k, d.kind path = .ok k) ↔ ∃ n, d.lookup path = .ok n := by
    unfold kind
    cases d.lookup path <;> simp [Except.map]
  rw [hkind]
  constructor
  · rintro ⟨n, hn⟩
    obtain ⟨hne, hnul, hsize, place, hplace, _⟩ := lookup_eq_ok_iff.1 hn
    exact ⟨hne, hnul, hsize, place, hplace⟩
  · rintro ⟨hne, hnul, hsize, place, hplace⟩
    obtain ⟨n, hn⟩ := exists_node_of_steps hplace
    exact ⟨n, lookup_eq_ok_iff.2 ⟨hne, hnul, hsize, place, hplace, hn⟩⟩

theorem exists?_iff {path : Text} :
    d.exists? path = true ↔ path ≠ [] ∧ Char.ofNat 0 ∉ path ∧ Text.byteSize path < 4096 ∧
      ∃ place, d.follow path = .ok place := by
  rw [← kind_eq_ok_iff, exists?, kind]
  cases d.lookup path <;> simp [Except.map, Except.toOption]

theorem isDirectory_iff {path : Text} :
    d.isDirectory path = true ↔ path ≠ [] ∧ Char.ofNat 0 ∉ path ∧ Text.byteSize path < 4096 ∧
      ∃ place es, d.follow path = .ok place ∧ d.node? place = some (.directory es) := by
  have hdir : d.isDirectory path = true ↔ ∃ es, d.lookup path = .ok (.directory es) := by
    unfold isDirectory
    cases d.lookup path with
    | error e => simp
    | ok n => cases n <;> simp [DiskNode.isDirectory]
  rw [hdir]
  constructor
  · rintro ⟨es, hes⟩
    obtain ⟨hne, hnul, hsize, place, hplace, hnode⟩ := lookup_eq_ok_iff.1 hes
    exact ⟨hne, hnul, hsize, place, es, hplace, hnode⟩
  · rintro ⟨hne, hnul, hsize, place, es, hplace, hnode⟩
    exact ⟨es, lookup_eq_ok_iff.2 ⟨hne, hnul, hsize, place, hplace, hnode⟩⟩

end Disk
end ManifestShell
