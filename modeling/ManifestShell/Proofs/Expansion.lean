import Mathlib.Data.List.Nodup
import ManifestShell.Proofs.Escaping
import ManifestShell.Proofs.Lookup

/-! What the expansion of a pattern comes to.
Every path that the walk returns is the one it started from or extends it, as a text and as a way:
it leads somewhere, and from any place from which the start leads to the same directory it leads to
the same entry. -/
namespace ManifestShell.Disk

open Glob

variable {d : Disk} {place next : List Text} {path name : Text}

structure At (d : Disk) (path : Text) (place : List Text) : Prop where
  tidy : Tidy path
  follow : d.follow path = .ok place

/-- The path `q` goes on from `path`: where the latter leads to `place`, the former leads to
`next`.  It repeats the text of the path, unless that is the single dot which is left out. -/
structure Extends (d : Disk) (path : Text) (place : List Text) (q : Text) (next : List Text) :
    Prop where
  tidy : Tidy q
  absolute : isAbsolute q = isAbsolute path
  text : isDot path = false → isDot q = false ∧ stem path ++ ['/'] <+: q
  steps : ∀ base, d.steps base path = .ok place → d.steps base q = .ok next

theorem stem_isPrefix (path : Text) : path <+: stem path ++ ['/'] := by
  rcases eq_stem_or path with ⟨hp, _⟩ | hp
  · rw [← hp]
    exact List.prefix_append path ['/']
  · rw [← hp]

theorem Extends.trans {q r : Text} {last : List Text} (h : Extends d path place q next)
    (h' : Extends d q next r last) : Extends d path place r last where
  tidy := h'.tidy
  absolute := h'.absolute.trans h.absolute
  text hdot := by
    obtain ⟨hq, hpq⟩ := h.text hdot
    obtain ⟨hr, hqr⟩ := h'.text hq
    exact ⟨hr, hpq.trans ((stem_isPrefix q).trans hqr)⟩
  steps base hb := h'.steps base (h.steps base hb)

theorem Extends.at {q : Text} (h : Extends d path place q next) (hp : At d path place) :
    At d q next := by
  refine ⟨h.tidy, ?_⟩
  have hbase : d.base q = d.base path := by simp [base, h.absolute]
  rw [Disk.follow, hbase]
  exact h.steps _ hp.follow

theorem steps_bind_enter {base : List Text} {q : Text}
    (hq : d.steps base q = d.steps base path >>= fun next => d.enter next name)
    (he : d.enter place name = .ok next) (hb : d.steps base path = .ok place) :
    d.steps base q = .ok next := by
  rw [hq, hb]
  exact he

theorem isDot_join (hne : path ≠ []) (hs : '/' ∉ name) (h : isDot path = false) :
    isDot (join path name) = false := by
  rw [← Bool.not_eq_true, isDot_iff] at h ⊢
  rintro ⟨rest, hsplit, hrest⟩
  apply h
  rw [join_eq hne (isAbsolute_of_notMem hs), Text.splitOn_append_cons] at hsplit
  rcases List.append_eq_cons_iff.1 hsplit with ⟨hnil, _⟩ | ⟨parts, hstem, rfl⟩
  · exact absurd hnil (Text.splitOn_ne_nil '/' _)
  · have hparts : ∀ c ∈ parts, c = [] ∨ c = ['.'] := fun c hc =>
      hrest c (List.mem_append_left _ hc)
    rcases eq_stem_or path with ⟨hp, _⟩ | hp
    · exact ⟨parts, hp ▸ hstem, hparts⟩
    · refine ⟨parts ++ [[]], ?_, ?_⟩
      · rw [hp, Text.splitOn_append_cons, hstem]
        rfl
      · simpa [or_imp, forall_and] using hparts

theorem text_join (hne : path ≠ []) (hs : '/' ∉ name) (h : isDot path = false) :
    isDot (join path name) = false ∧ stem path ++ ['/'] <+: join path name := by
  refine ⟨isDot_join hne hs h, ?_⟩
  rw [join_eq hne (isAbsolute_of_notMem hs), List.append_cons (stem path) '/' name]
  exact List.prefix_append _ name

theorem extends_child (hp : At d path place) (hs : '/' ∉ name) (hn : Char.ofNat 0 ∉ name)
    (hne : child path name ≠ []) (he : d.enter place name = .ok next) :
    Extends d path place (child path name) next where
  tidy := tidy_child hp.tidy hs hn hne
  absolute := isAbsolute_child hs path
  text hdot := by
    rw [child, if_neg (by simp [hdot])]
    exact text_join hp.tidy.ne_nil hs hdot
  steps base := steps_bind_enter (steps_child hs base path) he

theorem extends_join (hp : At d path place) (hs : '/' ∉ name) (hn : Char.ofNat 0 ∉ name)
    (he : d.enter place name = .ok next) : Extends d path place (join path name) next where
  tidy := tidy_join hp.tidy hs hn
  absolute := isAbsolute_join (isAbsolute_of_notMem hs) path
  text := text_join hp.tidy.ne_nil hs
  steps base := steps_bind_enter (steps_join hs base path) he

theorem child_ne_nil (path : Text) (h : name ≠ []) : child path name ≠ [] := by
  unfold child
  split_ifs
  · exact h
  · unfold join
    split_ifs <;> simp [h]

theorem extends_entry {es : List (Text × DiskNode)} (hd : d.WellFormed) (hp : At d path place)
    (hes : d.node? place = some (.directory es)) (hm : name ∈ es.map Prod.fst) :
    Extends d path place (child path name) (place ++ [name]) := by
  cases hd.node? hes with
  | directory _ hvalid _ =>
    obtain ⟨e, he, rfl⟩ := List.mem_map.1 hm
    have hv := hvalid e he
    exact extends_child hp hv.no_separator hv.no_nul (child_ne_nil path hv.ne_nil)
      (enter_name hes hv hm)

theorem At.directory (hp : At d path place) (hdir : d.isDirectory path = true) :
    ∃ es, d.node? place = some (.directory es) := by
  obtain ⟨_, _, _, place', es, hf, hes⟩ := isDirectory_iff.1 hdir
  rw [hp.follow] at hf
  obtain rfl := Except.ok.inj hf
  exact ⟨es, hes⟩

theorem At.lookup {n : DiskNode} (hp : At d path place) (hl : d.lookup path = .ok n) :
    d.node? place = some n := by
  obtain ⟨_, _, _, place', hf, hn⟩ := lookup_eq_ok_iff.1 hl
  rw [hp.follow] at hf
  obtain rfl := Except.ok.inj hf
  exact hn

theorem exists_enter_special {es : List (Text × DiskNode)}
    (hes : d.node? place = some (.directory es)) (h : name = ['.'] ∨ name = ['.', '.']) :
    ∃ next, d.enter place name = .ok next := by
  rcases h with rfl | rfl
  · exact ⟨_, enter_stay hes (Or.inr rfl)⟩
  · exact ⟨_, enter_up hes⟩

theorem extends_present (hp : At d path place) (hs : '/' ∉ name)
    (h : d.present path name = true) : ∃ next, Extends d path place (child path name) next := by
  unfold present at h
  split_ifs at h with hspecial
  · obtain ⟨es, hes⟩ := hp.directory h
    obtain ⟨next, he⟩ := exists_enter_special hes hspecial
    refine ⟨next, extends_child hp hs ?_ (child_ne_nil path ?_) he⟩ <;>
      rcases hspecial with rfl | rfl <;> decide
  · obtain ⟨hne, hnul, _, next, hf⟩ := exists?_iff.1 h
    have hbase : d.base (child path name) = d.base path := by simp [base, isAbsolute_child hs path]
    rw [Disk.follow, hbase, steps_child hs, ← Disk.follow, hp.follow] at hf
    refine ⟨next, extends_child hp hs (fun hc => hnul ?_) hne hf⟩
    unfold child join
    split_ifs <;> simp [hc]

theorem extends_dotEntries {part : List Token} {q : Text} (hp : At d path place)
    (hdir : d.isDirectory path = true) (hq : q ∈ dotEntries part path) :
    ∃ next, Extends d path place q next := by
  unfold dotEntries at hq
  split_ifs at hq
  · obtain ⟨name, hname, rfl⟩ := List.mem_map.1 hq
    have hspecial : name = ['.'] ∨ name = ['.', '.'] := by
      have := (List.mem_filter.1 hname).1
      simp only [List.mem_cons, List.not_mem_nil, or_false] at this
      exact this.symm
    obtain ⟨es, hes⟩ := hp.directory hdir
    obtain ⟨next, he⟩ := exists_enter_special hes hspecial
    refine ⟨next, extends_join hp ?_ ?_ he⟩ <;> rcases hspecial with rfl | rfl <;> decide
  · simp at hq

mutual

theorem extends_descend {path : Text} {place : List Text} {all es : List (Text × DiskNode)}
    {e : Text × Text} (hd : d.WellFormed) (hp : At d path place)
    (hall : d.node? place = some (.directory all))
    (hsub : ∀ x ∈ es, x ∈ all) (he : e ∈ descend path es) :
    ∃ next, Extends d path place e.1 next := by
  match es with
  | [] => simp [descend] at he
  | (name, n) :: es =>
    have hmem : (name, n) ∈ all := hsub _ List.mem_cons_self
    have hext := extends_entry hd hp hall (List.mem_map_of_mem (f := Prod.fst) hmem)
    have hnode : d.node? (place ++ [name]) = some n := by
      cases hd.node? hall with
      | directory hasc _ _ => rw [node?_concat name hall, Entries.find?_of_mem hasc hmem]
    simp only [descend, List.cons_append, List.mem_cons, List.mem_append] at he
    rcases he with rfl | he | he
    · exact ⟨_, hext⟩
    · obtain ⟨next, hnext⟩ := extends_descendNode hd (hext.at hp) hnode he
      exact ⟨next, hext.trans hnext⟩
    · exact extends_descend hd hp hall (fun x hx => hsub x (List.mem_cons_of_mem _ hx)) he

theorem extends_descendNode {path : Text} {place : List Text} {n : DiskNode} {e : Text × Text}
    (hd : d.WellFormed) (hp : At d path place) (hn : d.node? place = some n)
    (he : e ∈ descendNode path n) :
    ∃ next, Extends d path place e.1 next := by
  match n with
  | .file content => simp [descendNode] at he
  | .directory es => exact extends_descend hd hp hn (fun _ => id) he

end

theorem extends_below {e : Text × Text} (hd : d.WellFormed) (hp : At d path place)
    (he : e ∈ d.below path) : ∃ next, Extends d path place e.1 next := by
  unfold below at he
  split at he
  · rename_i n hl
    exact extends_descendNode hd hp (hp.lookup hl) he
  · simp at he

def Cut (parts : List (List Token)) : Prop :=
  ∀ part ∈ parts, ∀ name, literal? part = some name → '/' ∉ name

theorem Cut.tail {part : List Token} {parts : List (List Token)} (h : Cut (part :: parts)) :
    Cut parts := fun p hp => h p (List.mem_cons_of_mem _ hp)

theorem At.names (hp : At d path place) (hm : name ∈ d.names path) :
    ∃ es, d.node? place = some (.directory es) ∧ name ∈ es.map Prod.fst := by
  unfold Disk.names at hm
  split at hm
  · rename_i es hl
    exact ⟨es, hp.lookup hl, hm⟩
  · simp at hm

section Parts

variable {part : List Token} {rest : List (List Token)} {q : Text}

theorem walk_literal (hl : literal? part = some name) :
    d.walk (part :: rest) path =
      if d.present path name then d.walk rest (child path name) else [] := by
  have hany : part ≠ [.anyComponents] := by
    rintro rfl
    simp [literal?] at hl
  rw [walk.eq_def]
  simp only [hany, hl, if_false]

theorem walk_wild (hany : part ≠ [.anyComponents]) (hl : literal? part = none) :
    d.walk (part :: rest) path =
      if d.isDirectory path then
        (dotEntries part path).flatMap (d.walk rest) ++
          (d.names path).flatMap fun name =>
            if matchesText part name then d.walk rest (child path name) else []
      else [] := by
  rw [walk.eq_def]
  simp only [hany, hl, if_false]

theorem mem_walk_literal (hl : literal? part = some name) :
    q ∈ d.walk (part :: rest) path ↔
      d.present path name = true ∧ q ∈ d.walk rest (child path name) := by
  rw [walk_literal hl]
  split_ifs with h <;> simp [h]

theorem mem_walk_wild (hany : part ≠ [.anyComponents]) (hl : literal? part = none) :
    q ∈ d.walk (part :: rest) path ↔ d.isDirectory path = true ∧
      ((∃ p ∈ dotEntries part path, q ∈ d.walk rest p) ∨
        ∃ name ∈ d.names path,
          matchesText part name = true ∧ q ∈ d.walk rest (child path name)) := by
  rw [walk_wild hany hl]
  split_ifs with h
  · simp [h]
  · simp [h]

theorem mem_walk_any_last :
    q ∈ d.walk [[.anyComponents]] path ↔
      (∃ e ∈ d.below path, e.1 = q) ∧ d.isDirectory q = true := by
  rw [walk.eq_def]
  simp only [if_true, List.mem_filter, List.mem_map]

theorem mem_walk_any :
    q ∈ d.walk ([.anyComponents] :: part :: rest) path ↔
      ∃ e ∈ d.below path, matchesText part e.2 = true ∧ q ∈ d.walk rest e.1 := by
  rw [walk.eq_def]
  simp only [if_true, List.mem_flatMap]
  refine exists_congr fun e => and_congr_right fun _ => ?_
  split_ifs with h <;> simp [h]

end Parts

/-- Once there is a part to follow, what the walk returns goes on from where it started. -/
theorem extends_walk {parts : List (List Token)} {q : Text} (hd : d.WellFormed) (hc : Cut parts)
    (hp : At d path place) (hq : q ∈ d.walk parts path) :
    parts = [] ∧ q = path ∨ ∃ next, Extends d path place q next := by
  -- a part for any number of components uses up the part after it: the induction is on the length
  induction hn : parts.length using Nat.strongRecOn generalizing parts path place with
  | ind n ih =>
    have hstep {rest : List (List Token)} {p : Text} (hlen : rest.length < n) (hcut : Cut rest)
        (hext : ∃ next, Extends d path place p next) (hmem : q ∈ d.walk rest p) :
        ∃ next, Extends d path place q next := by
      obtain ⟨mid, hmid⟩ := hext
      rcases ih rest.length hlen hcut (hmid.at hp) hmem rfl with ⟨_, rfl⟩ | ⟨last, hlast⟩
      · exact ⟨mid, hmid⟩
      · exact ⟨last, hmid.trans hlast⟩
    cases parts with
    | nil => exact Or.inl ⟨rfl, by simpa [walk] using hq⟩
    | cons part rest =>
      have hrest : rest.length < n := by simp [← hn]
      refine Or.inr ?_
      by_cases hany : part = [.anyComponents]
      · subst hany
        cases rest with
        | nil =>
          obtain ⟨⟨e, he, rfl⟩, _⟩ := mem_walk_any_last.1 hq
          exact extends_below hd hp he
        | cons after rest =>
          obtain ⟨e, he, _, hmem⟩ := mem_walk_any.1 hq
          exact hstep (Nat.lt_of_succ_lt hrest) hc.tail.tail (extends_below hd hp he) hmem
      · cases hl : literal? part with
        | some name =>
          obtain ⟨hpresent, hmem⟩ := (mem_walk_literal hl).1 hq
          have hs : '/' ∉ name := hc part List.mem_cons_self name hl
          exact hstep hrest hc.tail (extends_present hp hs hpresent) hmem
        | none =>
          obtain ⟨hdir, ⟨p, he, hmem⟩ | ⟨name, hname, _, hmem⟩⟩ := (mem_walk_wild hany hl).1 hq
          · exact hstep hrest hc.tail (extends_dotEntries hp hdir he) hmem
          · obtain ⟨es, hes, hname⟩ := hp.names hname
            exact hstep hrest hc.tail ⟨_, extends_entry hd hp hes hname⟩ hmem

section Exact

variable {t q : Text} {n : DiskNode} {rest : List (List Token)}

theorem dotEntries_exact (h : literal? (t.map exactToken) = none) :
    dotEntries (t.map exactToken) path = [] := by
  obtain ⟨c, hc, hwild⟩ := exists_wild_of_literal?_exact h
  have hdots : [['.', '.'], ['.']].filter (matchesText (t.map exactToken)) = [] := by
    refine List.filter_eq_nil_iff.2 fun x hx hmatch => ?_
    obtain rfl := matchesText_exact.1 hmatch
    have hspecial : x = ['.', '.'] ∨ x = ['.'] := by simpa using hx
    have hdot : c = '.' := by rcases hspecial with rfl | rfl <;> simpa using hc
    subst hdot
    exact absurd hwild (by decide)
  rw [dotEntries, hdots, List.map_nil, ite_self]

theorem walk_exact (hd : d.WellFormed) (hp : At d path place) (hs : '/' ∉ t)
    (hq : q ∈ d.walk (t.map exactToken :: rest) path) :
    (∃ next, Extends d path place (child path t) next) ∧ q ∈ d.walk rest (child path t) := by
  cases hl : literal? (t.map exactToken) with
  | some u =>
    obtain rfl := literal?_exact_eq_some hl
    obtain ⟨hpresent, hmem⟩ := (mem_walk_literal hl).1 hq
    exact ⟨extends_present hp hs hpresent, hmem⟩
  | none =>
    obtain ⟨_, ⟨p, he, _⟩ | ⟨name, hname, hmatch, hmem⟩⟩ :=
      (mem_walk_wild (map_exactToken_ne t) hl).1 hq
    · simp [dotEntries_exact hl] at he
    · obtain rfl := matchesText_exact.1 hmatch
      obtain ⟨es, hes, hname⟩ := hp.names hname
      exact ⟨⟨_, extends_entry hd hp hes hname⟩, hmem⟩

theorem flatMap_ite {α : Type} (l : List α) (p : α → Bool) (f : α → List Text) :
    (l.flatMap fun x => if p x then f x else []) = (l.filter p).flatMap f := by
  induction l with
  | nil => rfl
  | cons x l ih =>
    rw [List.flatMap_cons, ih]
    by_cases h : p x = true
    · rw [if_pos h, List.filter_cons_of_pos h, List.flatMap_cons]
    · rw [if_neg h, List.filter_cons_of_neg h, List.nil_append]

theorem flatMap_of_unique {l : List Text} (hnodup : l.Nodup) (ht : t ∈ l) (f : Text → List Text) :
    (l.flatMap fun x => if x = t then f x else []) = f t := by
  have hite := flatMap_ite l (· == t) f
  simp only [beq_iff_eq] at hite
  rw [hite, List.filter_beq, List.count_eq_one_of_mem hnodup ht]
  simp

theorem nodup_names (hes : (DiskNode.directory n.entries).WellFormed) :
    (n.entries.map Prod.fst).Nodup := by
  cases hes with
  | directory hasc _ _ =>
    refine List.pairwise_map.2 (hasc.imp fun {a b} hlt heq => ?_)
    rw [heq] at hlt
    exact List.lt_irrefl _ hlt

theorem At.lookup_eq (hp : At d path place) (hn : d.node? place = some n)
    (hsize : Text.byteSize path < 4096) : d.lookup path = .ok n :=
  lookup_eq_ok_iff.2 ⟨hp.tidy.ne_nil, hp.tidy.no_nul, hsize, place, hp.follow, hn⟩

theorem names_of_lookup (h : d.lookup path = .ok n) : d.names path = n.entries.map Prod.fst := by
  cases n <;> simp [names, h, DiskNode.entries]

theorem isDirectory_of_lookup (h : d.lookup path = .ok n) : d.isDirectory path = n.isDirectory := by
  rw [isDirectory, h]

theorem walk_exact_eq (hd : d.WellFormed) (hp : At d path place)
    (hpsize : Text.byteSize path < 4096) (hs : '/' ∉ t) (hnul : Char.ofNat 0 ∉ t)
    (he : d.enter place t = .ok next) (hne : child path t ≠ [])
    (hsize : Text.byteSize (child path t) < 4096) :
    d.walk (t.map exactToken :: rest) path = d.walk rest (child path t) := by
  obtain ⟨es, hes, hcases⟩ := enter_eq_ok he
  have hlookup := hp.lookup_eq hes hpsize
  have hdir : d.isDirectory path = true := isDirectory_of_lookup hlookup
  cases hl : literal? (t.map exactToken) with
  | some u =>
    obtain rfl := literal?_exact_eq_some hl
    have hpresent : d.present path u = true := by
      unfold present
      split_ifs with hspecial
      · exact hdir
      · have hext := extends_child hp hs hnul hne he
        exact exists?_iff.2 ⟨hne, hext.tidy.no_nul, hsize, next, (hext.at hp).follow⟩
    rw [walk_literal hl, if_pos hpresent]
  | none =>
    have hmem : t ∈ es.map Prod.fst := by
      obtain ⟨c, hc, hwild⟩ := exists_wild_of_literal?_exact hl
      have hdot : c ≠ '.' := by
        rintro rfl
        exact absurd hwild (by decide)
      rcases hcases with ⟨rfl | rfl, _⟩ | ⟨rfl, _⟩ | ⟨hfind, _⟩
      · simp at hc
      · simp [hdot] at hc
      · simp [hdot] at hc
      · exact Entries.find?_isSome_iff.1 hfind
    have hmatch (x : Text) : (matchesText (t.map exactToken) x = true) = (x = t) :=
      propext matchesText_exact
    rw [walk_wild (map_exactToken_ne t) hl, if_pos hdir, dotEntries_exact hl, List.flatMap_nil,
      List.nil_append, names_of_lookup hlookup]
    simp only [hmatch]
    exact flatMap_of_unique (nodup_names (hd.node? hes)) hmem _

def spell (path : Text) (components : List Text) : Text := components.foldl child path

theorem walk_exact_parts {components : List Text} (hd : d.WellFormed) (hp : At d path place)
    (hs : ∀ t ∈ components, '/' ∉ t)
    (hq : q ∈ d.walk (components.map (List.map exactToken) ++ rest) path) :
    (∃ next, At d (spell path components) next) ∧ q ∈ d.walk rest (spell path components) := by
  induction components generalizing path place with
  | nil => exact ⟨⟨place, hp⟩, hq⟩
  | cons t components ih =>
    obtain ⟨⟨next, hnext⟩, hmem⟩ := walk_exact hd hp (hs t List.mem_cons_self) hq
    exact ih (hnext.at hp) (fun u hu => hs u (List.mem_cons_of_mem _ hu)) hmem

theorem walk_exact_parts_eq {components : List Text} (hd : d.WellFormed) (hp : At d path place)
    (hs : ∀ t ∈ components, '/' ∉ t ∧ Char.ofNat 0 ∉ t)
    (hlast : components.foldlM d.enter place = .ok next)
    (hway : ∀ way, way <+: components →
      spell path way ≠ [] ∧ Text.byteSize (spell path way) < 4096) :
    d.walk (components.map (List.map exactToken) ++ rest) path =
        d.walk rest (spell path components) ∧
      At d (spell path components) next := by
  induction components generalizing path place with
  | nil =>
    obtain rfl : place = next := by simpa [pure, Except.pure] using hlast
    exact ⟨rfl, hp⟩
  | cons t components ih =>
    obtain ⟨⟨hslash, hnul⟩, hrest⟩ := List.forall_mem_cons.1 hs
    have hpsize : Text.byteSize path < 4096 := (hway [] List.nil_prefix).2
    obtain ⟨hne, hsize⟩ := hway [t] (by simp)
    obtain ⟨mid, he, hsteps⟩ := foldlM_cons_eq_ok hlast
    have hmid := (extends_child hp hslash hnul hne he).at hp
    obtain ⟨hwalk, hat⟩ := ih hmid hrest hsteps fun way hwayp =>
      hway (t :: way) (List.cons_prefix_cons.2 ⟨rfl, hwayp⟩)
    refine ⟨?_, hat⟩
    rw [List.map_cons, List.cons_append, walk_exact_eq hd hp hpsize hslash hnul he hne hsize]
    exact hwalk

end Exact

theorem mem_collapse {part : List Token} {parts : List (List Token)} (h : part ∈ collapse parts) :
    part ∈ parts := by
  induction parts with
  | nil => simp [collapse] at h
  | cons first rest ih =>
    unfold collapse at h
    split at h
    · rename_i next rest' hrest
      rw [hrest] at ih
      split_ifs at h
      · exact List.mem_cons_of_mem _ (ih h)
      · rcases List.mem_cons.1 h with rfl | h
        · exact List.mem_cons_self
        · exact List.mem_cons_of_mem _ (ih h)
    · simp only [List.mem_singleton] at h
      exact h ▸ List.mem_cons_self

theorem collapse_ne_nil {parts : List (List Token)} (h : parts ≠ []) : collapse parts ≠ [] := by
  cases parts with
  | nil => exact absurd rfl h
  | cons part rest =>
    unfold collapse
    split
    · split_ifs <;> simp
    · simp

theorem collapse_append {init : List (List Token)} (h : ∀ part ∈ init, part ≠ [.anyComponents])
    (parts : List (List Token)) : collapse (init ++ parts) = init ++ collapse parts := by
  induction init with
  | nil => rfl
  | cons part init ih =>
    obtain ⟨hpart, hinit⟩ := List.forall_mem_cons.1 h
    rw [List.cons_append, collapse, ih hinit]
    split
    · rename_i hrest
      rw [if_neg (fun h => hpart h.1), ← hrest]
      rfl
    · rename_i hrest
      rw [List.cons_append, hrest]

theorem collapse_exact_parts (components : List Text) (parts : List (List Token)) :
    collapse (components.map (List.map exactToken) ++ parts) =
      components.map (List.map exactToken) ++ collapse parts := by
  refine collapse_append (fun part hpart => ?_) parts
  obtain ⟨t, _, rfl⟩ := List.mem_map.1 hpart
  exact map_exactToken_ne t

theorem notMem_of_mem_patternParts {pattern p : Text} (h : p ∈ patternParts pattern) : '/' ∉ p := by
  simp only [patternParts] at h
  split_ifs at h
  · exact Text.notMem_of_mem_splitOn (List.mem_of_mem_dropLast h)
  · exact Text.notMem_of_mem_splitOn h

theorem patternParts_ne_nil {pattern : Text} (hne : pattern ≠ []) :
    patternParts pattern ≠ [] := by
  simp only [patternParts]
  split_ifs with hlast
  · intro hnil
    have hsplit : Text.splitOn '/' pattern = [[]] := by
      obtain ⟨init, hinit⟩ := List.getLast?_eq_some_iff.1 hlast
      rw [hinit, List.dropLast_concat] at hnil
      rw [hinit, hnil]
      rfl
    have hpattern := Text.intercalate_splitOn '/' pattern
    rw [hsplit] at hpattern
    exact hne hpattern.symm
  · exact Text.splitOn_ne_nil '/' pattern

theorem mapM_parse_cons_eq_ok {p : Text} {parts : List Text} {tokens : List (List Token)}
    (h : (p :: parts).mapM Glob.parse = .ok tokens) :
    ∃ part rest, Glob.parse p = .ok part ∧ parts.mapM Glob.parse = .ok rest ∧
      tokens = part :: rest := by
  rw [List.mapM_cons] at h
  cases hp : Glob.parse p with
  | error e => simp [hp, bind, Except.bind] at h
  | ok part =>
    cases hps : parts.mapM Glob.parse with
    | error e => simp [hp, hps, bind, Except.bind] at h
    | ok rest =>
      refine ⟨part, rest, rfl, rfl, ?_⟩
      simpa [hp, hps, bind, Except.bind, pure, Except.pure] using h.symm

theorem cut_of_mapM {parts : List Text} {tokens : List (List Token)} (hs : ∀ p ∈ parts, '/' ∉ p)
    (h : parts.mapM Glob.parse = .ok tokens) : Cut tokens := by
  induction parts generalizing tokens with
  | nil =>
    obtain rfl : [] = tokens := by simpa [pure, Except.pure] using h
    simp [Cut]
  | cons p parts ih =>
    obtain ⟨part, rest, hp, hps, rfl⟩ := mapM_parse_cons_eq_ok h
    obtain ⟨hsp, hsps⟩ := List.forall_mem_cons.1 hs
    exact List.forall_mem_cons.2 ⟨fun name => literal?_no_separator hp hsp, ih hsps hps⟩

def walkParts (pattern : Text) : List Text :=
  let relative := if isAbsolute pattern then pattern.drop 1 else pattern
  if relative.isEmpty then [[]] else patternParts relative

def walkStart (pattern : Text) : Text := if isAbsolute pattern then ['/'] else ['.']

theorem expand_eq_ok_iff {pattern : Text} {hits : List Text} :
    d.expand pattern = .ok hits ↔ (∃ whole, Glob.parse pattern = .ok whole) ∧
      ∃ tokens, (walkParts pattern).mapM Glob.parse = .ok tokens ∧
        hits = if pattern.getLast? = some '/' then
          (d.walk (collapse tokens) (walkStart pattern)).filter d.isDirectory
        else d.walk (collapse tokens) (walkStart pattern) := by
  have hexpand : d.expand pattern = (do
    let _ ← Glob.parse pattern
    let tokens ← (walkParts pattern).mapM Glob.parse
    let paths := d.walk (collapse tokens) (walkStart pattern)
    return if pattern.getLast? = some '/' then paths.filter d.isDirectory else paths) := rfl
  rw [hexpand]
  cases Glob.parse pattern with
  | error e => simp [bind, Except.bind]
  | ok whole =>
    cases (walkParts pattern).mapM Glob.parse with
    | error e => simp [bind, Except.bind]
    | ok tokens =>
      simp only [bind, Except.bind, pure, Except.pure, Except.ok.injEq, exists_eq', true_and,
        exists_eq_left']
      exact eq_comm

theorem mem_expand {pattern q : Text} {hits : List Text} (h : d.expand pattern = .ok hits)
    (hq : q ∈ hits) : ∃ tokens, (walkParts pattern).mapM Glob.parse = .ok tokens ∧
      q ∈ d.walk (collapse tokens) (walkStart pattern) := by
  obtain ⟨_, tokens, htokens, rfl⟩ := expand_eq_ok_iff.1 h
  refine ⟨tokens, htokens, ?_⟩
  split_ifs at hq
  · exact (List.mem_filter.1 hq).1
  · exact hq

theorem notMem_of_mem_walkParts {pattern p : Text} (h : p ∈ walkParts pattern) : '/' ∉ p := by
  simp only [walkParts] at h
  split_ifs at h
  · simp [List.mem_singleton.1 h]
  · exact notMem_of_mem_patternParts h
  · simp [List.mem_singleton.1 h]
  · exact notMem_of_mem_patternParts h

theorem at_top (d : Disk) : At d ['/'] [] where
  tidy := ⟨by decide, by decide, by decide⟩
  follow := rfl

theorem at_dot {es : List (Text × DiskNode)}
    (h : d.node? d.workingDirectory = some (.directory es)) : At d ['.'] d.workingDirectory where
  tidy := ⟨by decide, by decide, by decide⟩
  follow := (steps_of_notMem (by decide) _).trans (enter_stay h (Or.inr rfl))

/-- Whatever a pattern expands to is there, and it is absolute if the pattern is. -/
theorem expand_at {pattern q : Text} {hits : List Text} (hd : d.WellFormed)
    (hstart : ∃ place, At d (walkStart pattern) place) (h : d.expand pattern = .ok hits)
    (hq : q ∈ hits) : (∃ place, At d q place) ∧ isAbsolute q = isAbsolute pattern := by
  obtain ⟨place, hplace⟩ := hstart
  obtain ⟨tokens, htokens, hmem⟩ := mem_expand h hq
  have hcut : Cut (collapse tokens) := fun part hpart =>
    cut_of_mapM (fun p => notMem_of_mem_walkParts) htokens part (mem_collapse hpart)
  have habs : isAbsolute (walkStart pattern) = isAbsolute pattern := by
    unfold walkStart
    split_ifs with h <;> simp [h] <;> rfl
  rcases extends_walk hd hcut hplace hmem with ⟨_, rfl⟩ | ⟨next, hext⟩
  · exact ⟨⟨place, hplace⟩, habs⟩
  · exact ⟨⟨next, hext.at hplace⟩, hext.absolute.trans habs⟩

end ManifestShell.Disk
