import ManifestShell.Files
import ManifestShell.Proofs.Lookup

/-! Listings of a tree.
A tree is described by declaring its files and directories; what lies above a declared path need not
be declared.  Whatever the order of the declarations, and even if some are repeated, the listing
then holds under each path the kind of the node that the path leads to, and nothing else. -/
namespace ManifestShell

/-- The node that a path leads to below a directory with the given entries. -/
def DiskNode.nodeAt (es : List (Text × DiskNode)) (path : Text) : Option DiskNode :=
  find? (Text.splitOn '/' path) (directory es)

namespace DiskNode

variable {es : List (Text × DiskNode)} {path rest name : Text} {n : DiskNode}

theorem nodeAt_append_cons (es : List (Text × DiskNode)) (path rest : Text) :
    nodeAt es (path ++ '/' :: rest) =
      (nodeAt es path).bind (find? (Text.splitOn '/' rest)) := by
  rw [nodeAt, Text.splitOn_append_cons, Disk.find?_append]
  rfl

theorem nodeAt_of_notMem (h : '/' ∉ name) : nodeAt es name = Entries.find? name es := by
  exact (congrArg (find? · _) (Text.splitOn_of_notMem h)).trans (find?_name name (directory es))

theorem exists_directory_of_nodeAt (h : nodeAt es (path ++ '/' :: rest) = some n) :
    ∃ es', nodeAt es path = some (directory es') := by
  rw [nodeAt_append_cons] at h
  obtain ⟨m, hm, hrest⟩ := Option.bind_eq_some_iff.1 h
  cases m with
  | directory es' => exact ⟨es', hm⟩
  | file content => simp [find?_file content (Text.splitOn_ne_nil '/' rest)] at hrest

end DiskNode

namespace Table

variable {α : Type}

theorem find?_insertIfNew (t : Table α) (k k' : Text) (v : α) :
    (t.insertIfNew k v).find? k' = (t.find? k').or (if k = k' then some v else none) := by
  unfold insertIfNew
  split_ifs with hk heq heq
  · rw [← heq, Option.or_of_isSome hk]
  · rw [Option.or_none]
  · have hnone : t.find? k = none := by simpa using hk
    rw [find?_insert, if_pos heq, ← heq, hnone, Option.none_or]
  · rw [find?_insert, if_neg heq, Option.or_none]

theorem find?_foldl_insertIfNew (t : Table α) (ks : List Text) (k' : Text) (v : α) :
    (ks.foldl (fun t k => t.insertIfNew k v) t).find? k' =
      (t.find? k').or (if k' ∈ ks then some v else none) := by
  induction ks generalizing t with
  | nil => simp
  | cons k ks ih =>
    rw [List.foldl_cons, ih, find?_insertIfNew]
    by_cases h : k = k'
    · cases t.find? k' <;> simp [h]
    · simp [h, Ne.symm h]

end Table

namespace Listing

namespace Declaration

def path : Declaration → Text
  | file p => p
  | directory p => dropTrailingSeparators p

def kind : Declaration → EntryKind
  | file _ => .file
  | directory _ => .directory

end Declaration

variable {l : Listing} {ds : List Declaration} {es : List (Text × DiskNode)} {k path : Text}

theorem mem_ancestors_go {before : Text} : k ∈ ancestors.go before path ↔
    k ≠ [] ∧ ∃ passed rest, path = passed ++ '/' :: rest ∧ k = before ++ passed := by
  induction path generalizing before with
  | nil => simp [ancestors.go]
  | cons c path ih =>
    have hstep : (∃ passed rest, c :: path = passed ++ '/' :: rest ∧ k = before ++ passed) ↔
        (c = '/' ∧ k = before) ∨
          ∃ passed rest, path = passed ++ '/' :: rest ∧ k = before ++ [c] ++ passed := by
      constructor
      · rintro ⟨_ | ⟨b, passed⟩, rest, hpath, hk⟩
        · exact Or.inl ⟨(List.cons.inj hpath).1, by simpa using hk⟩
        · obtain ⟨rfl, htail⟩ := List.cons.inj hpath
          exact Or.inr ⟨passed, rest, htail, by simpa using hk⟩
      · rintro (⟨rfl, rfl⟩ | ⟨passed, rest, rfl, rfl⟩)
        · exact ⟨[], path, rfl, by simp⟩
        · exact ⟨c :: passed, rest, rfl, by simp⟩
    rw [hstep]
    unfold ancestors.go
    by_cases hc : c = '/' ∧ before ≠ []
    · rw [if_pos hc, List.mem_cons, ih]
      simp only [hc.1, true_and]
      constructor
      · rintro (rfl | ⟨hne, h⟩)
        · exact ⟨hc.2, Or.inl rfl⟩
        · exact ⟨hne, Or.inr h⟩
      · rintro ⟨hne, rfl | h⟩
        · exact Or.inl rfl
        · exact Or.inr ⟨hne, h⟩
    · rw [if_neg hc, ih]
      refine and_congr_right fun hne => ⟨Or.inr, ?_⟩
      rintro (⟨rfl, rfl⟩ | h)
      · exact absurd ⟨rfl, hne⟩ hc
      · exact h

theorem mem_ancestors : k ∈ ancestors path ↔ k ≠ [] ∧ k ++ ['/'] <+: path := by
  rw [ancestors, mem_ancestors_go]
  refine and_congr_right fun _ => ⟨?_, ?_⟩
  · rintro ⟨passed, rest, rfl, rfl⟩
    exact ⟨rest, by simp⟩
  · rintro ⟨rest, rfl⟩
    exact ⟨k, rest, by simp, rfl⟩

theorem find?_declare (l : Listing) (decl : Declaration) (k : Text) :
    (l.declare decl).entries.find? k = if decl.path = k then some decl.kind
      else (l.entries.find? k).or (if k ∈ ancestors decl.path then some .directory else none) := by
  cases decl <;>
  · simp only [declare, addFile, addDirectory, declareAncestors, Table.find?_insert,
      Table.find?_foldl_insertIfNew]
    rfl

theorem ofDeclarations_concat (ds : List Declaration) (decl : Declaration) :
    ofDeclarations (ds ++ [decl]) = (ofDeclarations ds).declare decl := by
  simp [ofDeclarations]

/-- The declarations describe the tree: each is true of it, and every node is declared or lies above
a declared one. -/
structure Describes (ds : List Declaration) (es : List (Text × DiskNode)) : Prop where
  sound : ∀ decl ∈ ds, (DiskNode.nodeAt es decl.path).map DiskNode.kind = some decl.kind
  complete : ∀ k, (DiskNode.nodeAt es k).isSome →
    ∃ decl ∈ ds, decl.path = k ∨ k ++ ['/'] <+: decl.path

/-- True declarations, and what they imply about the directories above, are true of the tree. -/
theorem nodeAt_of_find? {kind : EntryKind}
    (hds : ∀ decl ∈ ds, (DiskNode.nodeAt es decl.path).map DiskNode.kind = some decl.kind)
    (h : (ofDeclarations ds).entries.find? k = some kind) :
    (DiskNode.nodeAt es k).map DiskNode.kind = some kind := by
  induction ds using List.reverseRecOn with
  | nil => cases h
  | append_singleton ds decl ih =>
    have hdecl := hds decl (by simp)
    rw [ofDeclarations_concat, find?_declare] at h
    split_ifs at h with hk habove
    · rw [← hk, hdecl, h]
    · rcases Option.or_eq_some_iff.1 h with hold | ⟨_, hnew⟩
      · exact ih (fun decl hmem => hds decl (List.mem_append_left _ hmem)) hold
      · obtain ⟨rest, hrest⟩ := (mem_ancestors.1 habove).2
        obtain ⟨n, hn, _⟩ := Option.map_eq_some_iff.1 hdecl
        rw [← hrest, List.append_assoc] at hn
        obtain ⟨es', hes'⟩ := DiskNode.exists_directory_of_nodeAt hn
        rw [hes', ← hnew]
        rfl
    · rw [Option.or_none] at h
      exact ih (fun decl hmem => hds decl (List.mem_append_left _ hmem)) h

theorem mem_keys_declare {decl : Declaration} : k ∈ (l.declare decl).entries.keys ↔
    (k = decl.path ∨ k ∈ ancestors decl.path) ∨ k ∈ l.entries.keys := by
  rw [Table.mem_keys_iff, Table.mem_keys_iff, find?_declare]
  split_ifs with hpath habove
  · simp [hpath]
  · simp [habove]
  · simp [habove, Ne.symm hpath]

/-- What is declared, and what lies above it, is listed, and nothing else. -/
theorem mem_keys_ofDeclarations : k ∈ (ofDeclarations ds).entries.keys ↔
    ∃ decl ∈ ds, k = decl.path ∨ k ∈ ancestors decl.path := by
  induction ds using List.reverseRecOn with
  | nil => simp [ofDeclarations, empty, Table.empty, Table.keys]
  | append_singleton ds last ih =>
    rw [ofDeclarations_concat, mem_keys_declare, ih]
    simp only [List.mem_append, List.mem_singleton, or_and_right, exists_or, exists_eq_left]
    exact or_comm

theorem find?_ofDeclarations (hes : (DiskNode.directory es).WellFormed) (h : Describes ds es)
    (k : Text) :
    (ofDeclarations ds).entries.find? k = (DiskNode.nodeAt es k).map DiskNode.kind := by
  cases hfind : (ofDeclarations ds).entries.find? k with
  | some kind => exact (nodeAt_of_find? h.sound hfind).symm
  | none =>
    cases hnode : DiskNode.nodeAt es k with
    | none => rfl
    | some n =>
      have hne : k ≠ [] := by
        rintro rfl
        rw [DiskNode.nodeAt_of_notMem List.not_mem_nil] at hnode
        cases hes with
        | directory _ hvalid _ => exact absurd rfl (hvalid _ (Entries.mem_of_find? hnode)).ne_nil
      obtain ⟨decl, hmem, hk⟩ := h.complete k (by rw [hnode]; rfl)
      have hlisted : k ∈ (ofDeclarations ds).entries.keys := mem_keys_ofDeclarations.2
        ⟨decl, hmem, hk.imp Eq.symm fun hpre => mem_ancestors.2 ⟨hne, hpre⟩⟩
      rw [Table.mem_keys_iff, hfind] at hlisted
      cases hlisted

theorem dropTrailingSeparators_eq (h : path.getLast? ≠ some '/') :
    dropTrailingSeparators path = path := by
  rw [List.getLast?_eq_head?_reverse] at h
  rw [dropTrailingSeparators]
  cases hr : path.reverse with
  | nil => simpa using hr.symm
  | cons c cs =>
    have hc : (c == '/') = false := by
      rw [hr] at h
      simpa using h
    rw [List.dropWhile_cons, hc, ← List.reverse_reverse path, hr]
    rfl

mutual

/-- Declares everything below a directory whose path, with a separator behind it, is `lead`. -/
def declarations (lead : Text) : List (Text × DiskNode) → List Declaration
  | [] => []
  | (name, n) :: es => declarationsOf (lead ++ name) n ++ declarations lead es

def declarationsOf (path : Text) : DiskNode → List Declaration
  | .file _ => [.file path]
  | .directory es => .directory path :: declarations (path ++ ['/']) es

end

mutual

theorem sound_declarations {top all es : List (Text × DiskNode)} {lead : Text} {decl : Declaration}
    (hall : (DiskNode.directory all).WellFormed)
    (hlead : ∀ x, '/' ∉ x → DiskNode.nodeAt top (lead ++ x) = Entries.find? x all)
    (hsub : ∀ e ∈ es, e ∈ all) (hmem : decl ∈ declarations lead es) :
    (DiskNode.nodeAt top decl.path).map DiskNode.kind = some decl.kind := by
  match es with
  | [] => simp [declarations] at hmem
  | (name, n) :: es =>
    rw [declarations] at hmem
    rcases List.mem_append.1 hmem with hmem | hmem
    · have hentry : (name, n) ∈ all := hsub _ List.mem_cons_self
      cases hall with
      | directory hasc hvalid hbelow =>
        have hv := hvalid _ hentry
        have hnode := (hlead name hv.no_separator).trans (Entries.find?_of_mem hasc hentry)
        refine sound_declarationsOf (hbelow _ hentry) hnode (fun hl => hv.no_separator ?_) hmem
        rw [List.getLast?_append_of_ne_nil _ hv.ne_nil] at hl
        exact List.mem_of_getLast? hl
    · exact sound_declarations hall hlead (fun e he => hsub e (List.mem_cons_of_mem _ he)) hmem

theorem sound_declarationsOf {top : List (Text × DiskNode)} {path : Text} {n : DiskNode}
    {decl : Declaration} (hn : n.WellFormed) (hnode : DiskNode.nodeAt top path = some n)
    (hlast : path.getLast? ≠ some '/') (hmem : decl ∈ declarationsOf path n) :
    (DiskNode.nodeAt top decl.path).map DiskNode.kind = some decl.kind := by
  match n with
  | .file content =>
    obtain rfl : decl = .file path := by simpa [declarationsOf] using hmem
    rw [Declaration.path, hnode]
    rfl
  | .directory es =>
    rw [declarationsOf] at hmem
    rcases List.mem_cons.1 hmem with rfl | hmem
    · rw [Declaration.path, dropTrailingSeparators_eq hlast, hnode]
      rfl
    · refine sound_declarations hn (fun x hx => ?_) (fun _ => id) hmem
      rw [List.append_assoc, List.singleton_append, DiskNode.nodeAt_append_cons, hnode,
        Text.splitOn_of_notMem hx]
      exact DiskNode.find?_name x (.directory es)

end

theorem mem_declarations {lead name : Text} {n : DiskNode} {decl : Declaration}
    (h : (name, n) ∈ es) (hmem : decl ∈ declarationsOf (lead ++ name) n) :
    decl ∈ declarations lead es := by
  induction es with
  | nil => simp at h
  | cons e es ih =>
    rw [declarations]
    rcases List.mem_cons.1 h with rfl | h
    · exact List.mem_append_left _ hmem
    · exact List.mem_append_right _ (ih h)

theorem exists_declaration {names : List Text} {n : DiskNode} {name : Text} (lead : Text)
    (hes : (DiskNode.directory es).WellFormed)
    (h : DiskNode.find? (names ++ [name]) (.directory es) = some n) :
    ∃ decl ∈ declarations lead es, decl.path = lead ++ (Text.leadOf '/' names ++ name) := by
  induction names generalizing es lead with
  | nil =>
    rw [List.nil_append, DiskNode.find?_name] at h
    have hentry := Entries.mem_of_find? h
    cases hes with
    | directory _ hvalid _ =>
      have hv := hvalid _ hentry
      cases n with
      | file content =>
        exact ⟨.file (lead ++ name), mem_declarations hentry (by simp [declarationsOf]), rfl⟩
      | directory es' =>
        refine ⟨.directory (lead ++ name), mem_declarations hentry (by simp [declarationsOf]), ?_⟩
        refine dropTrailingSeparators_eq fun hl => hv.no_separator ?_
        rw [List.getLast?_append_of_ne_nil _ hv.ne_nil] at hl
        exact List.mem_of_getLast? hl
  | cons first names ih =>
    obtain ⟨m, hm, hrest⟩ := Option.bind_eq_some_iff.1 h
    have hentry := Entries.mem_of_find? hm
    cases hes with
    | directory _ _ hbelow =>
      cases m with
      | file content => simp [DiskNode.find?_file] at hrest
      | directory es' =>
        obtain ⟨decl, hdecl, hpath⟩ := ih (lead ++ first ++ ['/']) (hbelow _ hentry) hrest
        refine ⟨decl, mem_declarations hentry ?_, by simpa using hpath⟩
        rw [declarationsOf]
        exact List.mem_cons_of_mem _ hdecl

theorem describes_declarations (hes : (DiskNode.directory es).WellFormed) :
    Describes (declarations [] es) es where
  sound decl hmem :=
    sound_declarations hes (fun x hx => DiskNode.nodeAt_of_notMem hx) (fun _ => id) hmem
  complete k hk := by
    obtain ⟨n, hn⟩ := Option.isSome_iff_exists.1 hk
    obtain ⟨names, name, hnames, hname, rfl⟩ := Text.exists_leadOf '/' k
    rw [DiskNode.nodeAt, Text.splitOn_leadOf_append hnames, Text.splitOn_of_notMem hname] at hn
    obtain ⟨decl, hdecl, hpath⟩ := exists_declaration [] hes hn
    exact ⟨decl, hdecl, Or.inl hpath⟩

end Listing
end ManifestShell
