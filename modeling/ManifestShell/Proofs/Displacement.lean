import Mathlib.Data.List.Infix
import Mathlib.Data.List.Nodup
import Mathlib.Data.List.Perm.Subperm
import ManifestShell.Proofs.Lookup

/-! How far a list of components leads.
Wherever they can be followed, the components of a path take away some names and put others in their
place, whatever the disk.  With as many steps up as down a second round ends where the first one
did; otherwise there is a disk on which it ends elsewhere, and an entry that is only at the end of
the first. -/
namespace ManifestShell

namespace Disk

variable {d : Disk}

/-- The place that a component names, if it can be entered at all. -/
def move (place : List Text) (component : Text) : List Text :=
  if component = [] ∨ component = ['.'] then place
  else if component = ['.', '.'] then place.dropLast
  else place ++ [component]

def isStep (component : Text) : Bool :=
  !(component == [] || component == ['.'] || component == ['.', '.'])

theorem component_cases (component : Text) :
    (component = [] ∨ component = ['.']) ∨ component = ['.', '.'] ∨ isStep component = true := by
  by_cases h : component = [] ∨ component = ['.']
  · exact Or.inl h
  · by_cases h' : component = ['.', '.']
    · exact Or.inr (Or.inl h')
    · exact Or.inr (Or.inr (by simp_all [isStep]))

theorem move_stay {component : Text} (h : component = [] ∨ component = ['.'])
    (place : List Text) : move place component = place := by
  simp [move, h]

@[simp] theorem move_up (place : List Text) : move place ['.', '.'] = place.dropLast := by
  simp [move]

theorem move_step {component : Text} (h : isStep component = true) (place : List Text) :
    move place component = place ++ [component] := by
  simp only [isStep, Bool.not_eq_true', Bool.or_eq_false_iff, beq_eq_false_iff_ne] at h
  simp [move, h.1.1, h.1.2, h.2]

theorem move_of_enter {place next : List Text} {component : Text}
    (h : d.enter place component = .ok next) : next = move place component := by
  obtain ⟨_, _, ⟨hc, hn⟩ | ⟨rfl, rfl⟩ | ⟨_, _, h₁, h₂, h₃, rfl⟩⟩ := enter_eq_ok h
  · rw [hn, move_stay hc]
  · exact (move_up place).symm
  · exact (move_step (by simp [isStep, h₁, h₂, h₃]) place).symm

theorem foldl_move_of_foldlM {components : List Text} {place last : List Text}
    (h : components.foldlM d.enter place = .ok last) : last = components.foldl move place := by
  induction components generalizing place with
  | nil => simpa [pure, Except.pure] using h.symm
  | cons c components ih =>
    obtain ⟨next, hc, hrest⟩ := foldlM_cons_eq_ok h
    rw [List.foldl_cons, ← move_of_enter hc]
    exact ih hrest

theorem validName_of_enter {place next : List Text} {component : Text} (hd : d.WellFormed)
    (h : d.enter place component = .ok next) (hstep : isStep component = true) :
    ValidName component := by
  obtain ⟨es, hes, ⟨rfl | rfl, _⟩ | ⟨rfl, _⟩ | ⟨hfind, _⟩⟩ := enter_eq_ok h
  · exact absurd hstep (by decide)
  · exact absurd hstep (by decide)
  · exact absurd hstep (by decide)
  · obtain ⟨e, he, rfl⟩ := List.mem_map.1 (Entries.find?_isSome_iff.1 hfind)
    cases hd.node? hes with
    | directory _ hvalid _ => exact hvalid e he

theorem validName_of_foldlM {components : List Text} {place last : List Text} (hd : d.WellFormed)
    (h : components.foldlM d.enter place = .ok last) :
    ∀ c ∈ components, isStep c = true → ValidName c := by
  induction components generalizing place with
  | nil => simp
  | cons c components ih =>
    obtain ⟨next, hc, hrest⟩ := foldlM_cons_eq_ok h
    exact List.forall_mem_cons.2 ⟨validName_of_enter hd hc, ih hrest⟩

/-- The steps up that go past the start are counted, and the names that are left in the end are put
behind what remains of it. -/
theorem exists_displacement (components : List Text) :
    ∃ up down, (∀ place : List Text,
        components.foldl move place = place.take (place.length - up) ++ down) ∧
      down.length + components.count ['.', '.'] = up + components.countP isStep ∧
      up ≤ components.count ['.', '.'] := by
  induction components using List.reverseRecOn with
  | nil => exact ⟨0, [], by simp, rfl, Nat.zero_le _⟩
  | append_singleton components c ih =>
    obtain ⟨up, down, hfold, hcount, hup⟩ := ih
    simp only [List.foldl_append, List.foldl_cons, List.foldl_nil, hfold, List.count_append,
      List.countP_append]
    rcases component_cases c with hc | rfl | hc
    · refine ⟨up, down, fun place => move_stay hc _, ?_⟩
      rcases hc with rfl | rfl <;> simpa [isStep] using ⟨hcount, hup⟩
    · rcases List.eq_nil_or_concat down with rfl | ⟨init, name, rfl⟩
      · refine ⟨up + 1, [], fun place => ?_, ?_⟩
        · rw [move_up, List.append_nil, List.append_nil, List.dropLast_eq_take, List.take_take,
            List.length_take]
          congr 1
          omega
        · simp [isStep] at hcount ⊢
          omega
      · refine ⟨up, init, fun place => ?_, ?_⟩
        · rw [move_up, List.concat_eq_append, ← List.append_assoc, List.dropLast_concat]
        · simp [isStep] at hcount ⊢
          omega
    · refine ⟨up, down ++ [c], fun place => ?_, ?_⟩
      · rw [move_step hc, List.append_assoc]
      · have hnone : [c].count ['.', '.'] = 0 := by
          refine List.count_eq_zero.2 fun hm => ?_
          rw [← List.mem_singleton.1 hm] at hc
          exact absurd hc (by decide)
        simp only [List.length_append, List.length_singleton, hnone, List.countP_singleton, hc,
          if_true]
        omega

/-- With as many steps up as down, a second round ends where the first one did. -/
theorem foldl_move_twice {components : List Text}
    (h : components.countP isStep = components.count ['.', '.']) (place : List Text) :
    components.foldl move (components.foldl move place) = components.foldl move place := by
  obtain ⟨up, down, hfold, hcount, _⟩ := exists_displacement components
  have hup : down.length = up := by omega
  rw [hfold (components.foldl move place), hfold place]
  have hlen : (place.take (place.length - up) ++ down).length - up = place.length - up := by
    rw [List.length_append, List.length_take]
    omega
  rw [hlen, List.take_append_of_le_length (by rw [List.length_take]; omega), List.take_take,
    Nat.min_self]

theorem length_foldl_move {components : List Text} {place : List Text}
    (h : components.count ['.', '.'] ≤ place.length) :
    (components.foldl move place).length + components.count ['.', '.'] =
      place.length + components.countP isStep := by
  obtain ⟨up, down, hfold, hcount, hup⟩ := exists_displacement components
  rw [hfold, List.length_append, List.length_take]
  omega

/-- The entries of a directory in a tree that has the names everywhere down to a depth, as far as
they are kept. -/
def growth (names : List Text) (keep : List Text → Bool) : Nat → List Text → List (Text × DiskNode)
  | 0, _ => []
  | n + 1, here =>
    (names.filter fun name => keep (here ++ [name])).map fun name =>
      (name, .directory (growth names keep n (here ++ [name])))

section Growth

variable {names : List Text} {keep : List Text → Bool} {n : Nat} {here : List Text}

theorem find?_map (name : Text) (g : Text → DiskNode) :
    Entries.find? name (names.map fun x => (x, g x)) =
      if name ∈ names then some (g name) else none := by
  induction names with
  | nil => rfl
  | cons x names ih =>
    rw [List.map_cons, Entries.find?, ih]
    by_cases hx : x = name
    · simp [hx]
    · simp [hx, Ne.symm hx]

theorem find?_growth_succ (name : Text) :
    Entries.find? name (growth names keep (n + 1) here) =
      if name ∈ names ∧ keep (here ++ [name]) = true then
        some (.directory (growth names keep n (here ++ [name])))
      else none := by
  rw [growth, find?_map]
  simp only [List.mem_filter]

theorem wellFormed_growth (hnames : names.Pairwise (· < ·)) (hvalid : ∀ x ∈ names, ValidName x) :
    (DiskNode.directory (growth names keep n here)).WellFormed := by
  induction n generalizing here with
  | zero => exact .directory List.Pairwise.nil (by simp [growth]) (by simp [growth])
  | succ n ih =>
    refine .directory ?_ ?_ ?_
    · exact List.pairwise_map.2 (hnames.filter _)
    · intro e he
      obtain ⟨x, hx, rfl⟩ := List.mem_map.1 he
      exact hvalid x (List.mem_filter.1 hx).1
    · intro e he
      obtain ⟨x, _, rfl⟩ := List.mem_map.1 he
      exact ih

theorem find?_growth {path : List Text} (hnames : ∀ x ∈ path, x ∈ names) (hlen : path.length ≤ n)
    (hkeep : ∀ way, way <+: path → way ≠ [] → keep (here ++ way) = true) :
    DiskNode.find? path (.directory (growth names keep n here)) =
      some (.directory (growth names keep (n - path.length) (here ++ path))) := by
  induction path generalizing n here with
  | nil => simp [DiskNode.find?]
  | cons x path ih =>
    obtain ⟨m, rfl⟩ : ∃ m, n = m + 1 := ⟨n - 1, by simp only [List.length_cons] at hlen; omega⟩
    have hx : x ∈ names ∧ keep (here ++ [x]) = true :=
      ⟨hnames x List.mem_cons_self, hkeep [x] (by simp) (by simp)⟩
    rw [DiskNode.find?, find?_growth_succ, if_pos hx, Option.bind_some, ih]
    · simp
    · exact fun y hy => hnames y (List.mem_cons_of_mem _ hy)
    · simpa using hlen
    · intro way hway _
      rw [List.append_assoc]
      exact hkeep (x :: way) (List.cons_prefix_cons.2 ⟨rfl, hway⟩) (List.cons_ne_nil x way)

end Growth

/-- Whether a place is without the rare name or has it at its home only. -/
def keeps (rare : Text) (home place : List Text) : Bool :=
  !place.contains rare || place == home ++ [rare]

theorem keeps_iff {rare : Text} {home place : List Text} :
    keeps rare home place = true ↔ rare ∉ place ∨ place = home ++ [rare] := by
  simp [keeps]

/-- A disk with the names everywhere down to a depth, but with one of them at one place only. -/
def rareDisk (names : List Text) (rare : Text) (home : List Text) (depth : Nat)
    (workingDirectory : List Text) : Disk where
  top := growth names (keeps rare home) depth []
  workingDirectory := workingDirectory

/-- The place can be reached without the rare name. -/
def Common (names : List Text) (rare : Text) (place : List Text) : Prop :=
  ∀ x ∈ place, x ∈ names ∧ x ≠ rare

section Rare

variable {names : List Text} {rare : Text} {place : List Text} {depth : Nat}

theorem Common.node? (h : Common names rare place) (home wd : List Text)
    (hlen : place.length ≤ depth) :
    (rareDisk names rare home depth wd).node? place =
      some (.directory (growth names (keeps rare home) (depth - place.length) place)) := by
  refine find?_growth (fun x hx => (h x hx).1) hlen fun way hway _ => ?_
  have hrare : rare ∉ way := fun hm => (h rare (hway.subset hm)).2 rfl
  exact keeps_iff.2 (Or.inl hrare)

theorem Common.move {component : Text} (h : Common names rare place)
    (hc : isStep component = true → component ∈ names ∧ component ≠ rare) :
    Common names rare (move place component) := by
  rcases component_cases component with hstay | rfl | hstep
  · rwa [move_stay hstay]
  · rw [move_up]
    exact fun x hx => h x (List.mem_of_mem_dropLast hx)
  · rw [move_step hstep]
    intro x hx
    rcases List.mem_append.1 hx with hx | hx
    · exact h x hx
    · exact List.mem_singleton.1 hx ▸ hc hstep

theorem Common.enter {component : Text} (h : Common names rare place) (home wd : List Text)
    (hlen : place.length < depth)
    (hc : isStep component = true → component ∈ names ∧ component ≠ rare)
    (hv : isStep component = true → ValidName component) :
    (rareDisk names rare home depth wd).enter place component =
      .ok (Disk.move place component) := by
  have hnode := h.node? home wd (Nat.le_of_lt hlen)
  rcases component_cases component with hstay | rfl | hstep
  · rw [move_stay hstay, enter_stay hnode hstay]
  · rw [move_up, enter_up hnode]
  · rw [move_step hstep]
    refine enter_name hnode (hv hstep) (Entries.find?_isSome_iff.1 ?_)
    have hnext : Common names rare (place ++ [component]) := move_step hstep place ▸ h.move hc
    have hrare : rare ∉ place ++ [component] := fun hm => (hnext rare hm).2 rfl
    obtain ⟨m, hm⟩ : ∃ m, depth - place.length = m + 1 := ⟨depth - place.length - 1, by omega⟩
    rw [hm, find?_growth_succ, if_pos ⟨(hc hstep).1, keeps_iff.2 (Or.inl hrare)⟩]
    rfl

theorem length_move_le (place : List Text) (component : Text) :
    (move place component).length ≤ place.length + 1 := by
  unfold move
  split_ifs <;> simp
  omega

theorem Common.foldlM {components : List Text} (h : Common names rare place) (home wd : List Text)
    (hlen : place.length + components.length ≤ depth)
    (hc : ∀ c ∈ components, isStep c = true → c ∈ names ∧ c ≠ rare)
    (hv : ∀ c ∈ components, isStep c = true → ValidName c) :
    components.foldlM (rareDisk names rare home depth wd).enter place =
        .ok (components.foldl Disk.move place) ∧
      Common names rare (components.foldl Disk.move place) := by
  induction components generalizing place with
  | nil => exact ⟨rfl, h⟩
  | cons c components ih =>
    rw [List.length_cons] at hlen
    have hcc := hc c List.mem_cons_self
    have henter := h.enter home wd (Nat.lt_of_lt_of_le (by omega) hlen) hcc
      (hv c List.mem_cons_self)
    rw [List.foldlM_cons, henter]
    refine ih (h.move hcc) ?_ (fun x hx => hc x (List.mem_cons_of_mem _ hx))
      (fun x hx => hv x (List.mem_cons_of_mem _ hx))
    have := length_move_le place c
    omega

theorem Common.enter_rare {home next : List Text} (h : Common names rare place)
    (hrare : ValidName rare) (hlen : place.length ≤ depth) (hne : place ≠ home) (wd : List Text) :
    (rareDisk names rare home depth wd).enter place rare ≠ .ok next := by
  intro henter
  obtain ⟨es, hes, ⟨rfl | rfl, _⟩ | ⟨rfl, _⟩ | ⟨hfind, _⟩⟩ := enter_eq_ok henter
  · exact hrare.ne_nil rfl
  · exact hrare.ne_dot rfl
  · exact hrare.ne_dots rfl
  · rw [h.node? home wd hlen, Option.some.injEq, DiskNode.directory.injEq] at hes
    subst hes
    cases hm : depth - place.length with
    | zero => simp [hm, growth, Entries.find?] at hfind
    | succ m =>
      simp [hm, find?_growth_succ, keeps_iff, hne] at hfind

end Rare

theorem exists_validName_ne (name : Text) : ∃ other, ValidName other ∧ other ≠ name := by
  by_cases h : name = ['v']
  · exact ⟨['w'], by constructor <;> decide, by simp [h]⟩
  · exact ⟨['v'], by constructor <;> decide, Ne.symm h⟩

/-- Unless the steps up and down balance, there is a disk on which a second round ends elsewhere,
and where a new name is to be found after the first round only. -/
theorem exists_disk_apart {components : List Text} {rare : Text} (hrare : ValidName rare)
    (hfresh : rare ∉ components) (hvalid : ∀ c ∈ components, isStep c = true → ValidName c)
    (hcount : components.countP isStep ≠ components.count ['.', '.']) :
    ∃ d : Disk, d.WellFormed ∧ ∃ first second es,
      components.foldlM d.enter d.workingDirectory = .ok first ∧
      components.foldlM d.enter first = .ok second ∧
      d.node? first = some (.directory es) ∧ rare ∈ es.map Prod.fst ∧
      ∀ next, d.enter second rare ≠ .ok next := by
  obtain ⟨spine, hspine, hne⟩ := exists_validName_ne rare
  -- the working directory is so deep that even the second round does not come to the top
  let names := Text.ascending (spine :: rare :: components.filter isStep)
  let wd := List.replicate (2 * components.count ['.', '.']) spine
  let first := components.foldl move wd
  let second := components.foldl move first
  let depth := wd.length + 2 * components.length + 1
  have hnames {x : Text} : x ∈ names ↔ x = spine ∨ x = rare ∨ x ∈ components ∧ isStep x = true := by
    simp [names, Text.mem_ascending]
  have hstep : ∀ c ∈ components, isStep c = true → c ∈ names ∧ c ≠ rare := fun c hc hs =>
    ⟨hnames.2 (Or.inr (Or.inr ⟨hc, hs⟩)), fun h => hfresh (h ▸ hc)⟩
  have hwd : Common names rare wd := fun x hx => by
    obtain rfl := List.eq_of_mem_replicate hx
    exact ⟨hnames.2 (Or.inl rfl), hne⟩
  have hwdlen : wd.length = 2 * components.count ['.', '.'] := List.length_replicate
  have hle : components.countP isStep ≤ components.length := List.countP_le_length
  have hfirstlen : first.length + components.count ['.', '.'] =
      wd.length + components.countP isStep := length_foldl_move (by omega)
  have hsecondlen : second.length + components.count ['.', '.'] =
      first.length + components.countP isStep := length_foldl_move (by omega)
  let d := rareDisk names rare first depth wd
  have hrun : components.foldlM d.enter wd = .ok first ∧ Common names rare first :=
    hwd.foldlM first wd (by omega) hstep hvalid
  have hrun' : components.foldlM d.enter first = .ok second ∧ Common names rare second :=
    hrun.2.foldlM first wd (by omega) hstep hvalid
  have hdepth : first.length < depth ∧ second.length ≤ depth := by omega
  refine ⟨d, ?_, first, second, _, hrun.1, hrun'.1,
    hrun.2.node? first wd (Nat.le_of_lt hdepth.1), ?_, fun next => ?_⟩
  · refine wellFormed_growth (Text.pairwise_ascending _) fun x hx => ?_
    rcases hnames.1 hx with rfl | rfl | ⟨hx, hs⟩
    · exact hspine
    · exact hrare
    · exact hvalid x hx hs
  · obtain ⟨m, hm⟩ : ∃ m, depth - first.length = m + 1 := ⟨depth - first.length - 1, by omega⟩
    rw [← Entries.find?_isSome_iff, hm, find?_growth_succ,
      if_pos ⟨hnames.2 (Or.inr (Or.inl rfl)), keeps_iff.2 (Or.inr rfl)⟩]
    rfl
  · refine hrun'.2.enter_rare hrare hdepth.2 (fun h => hcount ?_) wd
    rw [h] at hsecondlen
    omega

theorem length_le_byteSize (t : Text) : t.length ≤ Text.byteSize t := by
  induction t with
  | nil => rfl
  | cons c t ih =>
    have hc : 0 < c.utf8Size := Char.utf8Size_pos c
    rw [List.length_cons, Text.byteSize]
    omega

theorem validName_singleton {c : Char} (h : 256 ≤ c.toNat) : ValidName [c] := by
  have hne (e : Char) (he : e.toNat < 256) : c ≠ e := fun hce => by
    rw [hce] at h
    omega
  have hsize : Text.byteSize [c] = c.utf8Size := rfl
  exact {
    ne_nil := List.cons_ne_nil c []
    ne_dot := fun hc => hne '.' (by decide) (List.cons.inj hc).1
    ne_dots := fun hc => by simp at hc
    no_separator := fun hc => hne '/' (by decide) (List.mem_singleton.1 hc).symm
    no_nul := fun hc => hne (Char.ofNat 0) (by decide) (List.mem_singleton.1 hc).symm
    short := by
      have := Char.utf8Size_le_four c
      omega }

/-- There is a name made of a character that a short text does not have. -/
theorem exists_fresh {t : Text} (h : Text.byteSize t < 4096) : ∃ c, c ∉ t ∧ ValidName [c] := by
  -- the letters from this code point on are more than the text has characters
  let letters := (List.range 4096).map fun n => Char.ofNat (n + 256)
  have htoNat {n : Nat} (hn : n ∈ List.range 4096) : (Char.ofNat (n + 256)).toNat = n + 256 := by
    have hlt := List.mem_range.1 hn
    have hvalid : (n + 256).isValidChar := Or.inl (by omega)
    rw [Char.ofNat, dif_pos hvalid]
    rfl
  have hnodup : letters.Nodup := by
    refine List.Nodup.map_on (fun a ha b hb hab => ?_) List.nodup_range
    have := congrArg Char.toNat hab
    rw [htoNat ha, htoNat hb] at this
    omega
  have hnot : ¬ letters ⊆ t := fun hsub => by
    have hle := (hnodup.subperm hsub).length_le
    have hlen := length_le_byteSize t
    simp only [letters, List.length_map, List.length_range] at hle
    omega
  obtain ⟨c, hc, hct⟩ : ∃ c ∈ letters, c ∉ t := by
    simpa [List.subset_def] using hnot
  refine ⟨c, hct, validName_singleton ?_⟩
  obtain ⟨n, hn, rfl⟩ := List.mem_map.1 hc
  rw [htoNat hn]
  omega

end Disk
end ManifestShell
