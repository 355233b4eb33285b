import Mathlib.Data.List.Sort
import ManifestShell.Proofs.WiderPatterns

/-! How a typed path is completed.
For a path without wildcards, a listing proposes the listed paths that go on from it within its last
component.  If the listing is that of a tree, they are the entries of the directory named by the path
up to its last separator whose names begin with what stands behind it. -/
namespace ManifestShell

namespace Glob

variable {t : Text} {ts : List Token}

def Literal (t : Text) : Prop := ∀ c ∈ t, c ≠ '?' ∧ c ≠ '*' ∧ c ≠ '['

theorem scan_literal (h : Literal t) (fresh : Bool) (pos : Nat) (rest : Text) :
    scan (.between fresh) pos (t ++ rest) = (t.map .char ++ ·) <$>
      scan (.between ((t.getLast?.map (· == '/')).getD fresh)) (pos + t.length) rest := by
  induction t generalizing fresh pos with
  | nil => simp
  | cons c t ih =>
    obtain ⟨⟨h₁, h₂, h₃⟩, ht⟩ := List.forall_mem_cons.1 h
    have hstep : scanStep pos c (.between fresh) = .ok ([.char c], .between (c == '/')) := by
      simp [scanStep, scanFresh, h₁, h₂, h₃]
    have hlast : (((c :: t).getLast?).map (· == '/')).getD fresh =
        ((t.getLast?).map (· == '/')).getD (c == '/') := by
      rw [List.getLast?_cons]
      cases t.getLast? <;> rfl
    have hpos : pos + 1 + t.length = pos + (c :: t).length := by
      rw [List.length_cons]
      omega
    rw [List.cons_append, scan_cons_of_step hstep, ih ht, hlast, hpos, ← comp_map]
    rfl

theorem parse_literal (h : Literal t) : parse t = .ok (t.map .char) := by
  have hscan := scan_literal h true 0 []
  rw [List.append_nil] at hscan
  rw [parse, hscan]
  simp [scan, scanEnd, Functor.map, Except.map]

theorem scan_literal_append {rest : Text} (h : Literal t)
    (hrest : ∀ fresh pos, scan (.between fresh) pos rest = .ok ts) (fresh : Bool) (pos : Nat) :
    scan (.between fresh) pos (t ++ rest) = .ok (t.map .char ++ ts) := by
  rw [scan_literal h, hrest]
  rfl

/-- Behind a separator everything is scanned as at the start. -/
theorem scan_literal_append_of_separator {rest : Text} (h : Literal t)
    (ht : t.getLast? = some '/') (hrest : ∀ pos, scan (.between true) pos rest = .ok ts)
    (fresh : Bool) (pos : Nat) :
    scan (.between fresh) pos (t ++ rest) = .ok (t.map .char ++ ts) := by
  have hfresh : ((t.getLast?).map (· == '/')).getD fresh = true := by rw [ht]; rfl
  rw [scan_literal h, hfresh, hrest]
  rfl

theorem matchesText_chars {k : Text} : matchesText (t.map .char ++ ts) k = true ↔
    ∃ y, k = t ++ y ∧ matchesText ts y = true := by
  induction t generalizing k with
  | nil => simp
  | cons c t ih =>
    cases k with
    | nil => simp [matchesText]
    | cons b k =>
      have hcons : matchesText (.char c :: (t.map .char ++ ts)) (b :: k) =
          (b == c && matchesText (t.map .char ++ ts) k) := by
        rw [matchesText] <;> simp [Token.admits]
      rw [List.map_cons, List.cons_append, hcons, Bool.and_eq_true, beq_iff_eq, ih]
      constructor
      · rintro ⟨rfl, y, rfl, hy⟩
        exact ⟨y, rfl, hy⟩
      · rintro ⟨y, hk, hy⟩
        obtain ⟨rfl, rfl⟩ := List.cons.inj hk
        exact ⟨rfl, y, rfl, hy⟩

end Glob

namespace Source

open Glob

variable {files : FileSystem} {limit : Nat} {typed before after : Text}

/-- The wider pattern does not count if it finds nothing more. -/
theorem pathEntries_eq {hits : List Text}
    (hfirst : files.glob (typed ++ ['*']) limit = .ok hits)
    (hdeep : hits = [] → files.glob (deepPattern typed) limit = .ok []) :
    pathEntries files limit typed = .ok hits := by
  unfold pathEntries
  rw [hfirst]
  cases hits with
  | nil => exact hdeep rfl
  | cons p hits => rfl

theorem scan_typed (h : Literal typed) (fresh : Bool) (pos : Nat) :
    scan (.between fresh) pos (typed ++ ['*']) = .ok (typed.map .char ++ [.anyRun]) :=
  scan_literal_append h (fun _ _ => rfl) fresh pos

theorem exists_scan_deepPattern (h : Literal typed) : ∃ ts, ∀ fresh pos,
    scan (.between fresh) pos (deepPattern typed) = .ok (typed.map .char ++ ts) := by
  unfold deepPattern
  split_ifs with hlast
  · exact ⟨[.anyComponents], scan_literal_append_of_separator h hlast fun _ => rfl⟩
  · exact ⟨[.anyRun, .char '/', .anyComponents], scan_literal_append h fun _ _ => rfl⟩

def opened (entry : Text) : EntryKind → Text
  | .directory => entry ++ ['/']
  | .file => entry

theorem pathForm_eq_opened {entry : Text} {kind : EntryKind}
    (h : files.kind entry = .ok kind) :
    pathForm files before after entry = some (before ++ (opened entry kind ++ after)) := by
  cases kind <;> simp [pathForm, h, opened]

theorem pathForm_of_error {p : Text} {err : SourceError}
    (h : files.kind p = .error err) : pathForm files before after p = none := by
  simp only [pathForm, h]

end Source

namespace Listing

variable {l : Listing} {typed k : Text} {kind : EntryKind}

/-- The path goes on from the typed one within the component. -/
def Continues (typed k : Text) : Prop := ∃ more, k = typed ++ more ∧ '/' ∉ more

def continuing (l : Listing) (typed : Text) : List (Text × EntryKind) :=
  l.entries.entries.filter fun e =>
    (Text.dropStart? typed e.1).any fun more => !more.contains '/'

theorem any_dropStart?_iff :
    ((Text.dropStart? typed k).any fun more => !more.contains '/') = true ↔ Continues typed k := by
  rw [Option.any_eq_true]
  simp only [Text.dropStart?_eq_some_iff, Bool.not_eq_true', List.contains_eq_mem,
    decide_eq_false_iff_not, Continues]

theorem mem_continuing_iff : (k, kind) ∈ l.continuing typed ↔
    l.entries.find? k = some kind ∧ Continues typed k := by
  rw [continuing, List.mem_filter, any_dropStart?_iff]
  exact and_congr_left fun _ => ⟨Entries.find?_of_mem l.entries.ascending, Entries.mem_of_find?⟩

theorem pairwise_continuing (l : Listing) (typed : Text) :
    (l.continuing typed).Pairwise fun e f => e.1 < f.1 := l.entries.ascending.filter _

theorem TreeShaped.kind_of_mem_continuing (hl : TreeShaped l) {e : Text × EntryKind}
    (he : e ∈ l.continuing typed) : l.kind e.1 = .ok e.2 :=
  hl.kind_eq (mem_continuing_iff.1 he).1

theorem glob_literal (l : Listing) (htyped : Glob.Literal typed) (limit : Nat) :
    l.glob (typed ++ ['*']) limit = .ok (((l.continuing typed).take limit).map Prod.fst) := by
  have hparse : Glob.parse (typed ++ ['*']) = .ok (typed.map .char ++ [.anyRun]) :=
    Source.scan_typed htyped true 0
  have hmatch (k : Text) : Glob.matchesText (typed.map .char ++ [.anyRun]) k =
      (Text.dropStart? typed k).any fun more => !more.contains '/' := by
    rw [Bool.eq_iff_iff, any_dropStart?_iff, Glob.matchesText_chars]
    simp only [Glob.matchesText_run_iff, Continues]
  simp only [glob, hparse, Table.keys, List.filter_map, List.map_take, Function.comp_def, hmatch]
  rfl

end Listing

namespace Source

variable {l : Listing} {line before typed after : Text}

theorem pathForms_of_treeShaped (hl : l.TreeShaped) (htyped : Glob.Literal typed)
    (hline : Query.importSpan? line = some (before, typed, after)) (limit : Nat) :
    pathForms l.fileSystem limit line =
      .ok (((l.continuing typed).take limit).map fun e => before ++ (opened e.1 e.2 ++ after)) := by
  simp only [pathForms, hline, pathEntries_eq_glob hl, Listing.glob_literal l htyped, Except.map,
    Except.ok.injEq]
  rw [List.filterMap_map, ← List.filterMap_eq_map]
  refine List.filterMap_congr fun e he => ?_
  exact pathForm_eq_opened (hl.kind_of_mem_continuing (List.mem_of_mem_take he))

end Source

/-! ### Listings of a tree -/

namespace Source

open DiskNode Glob

variable {es : List (Text × DiskNode)} {names : List Text} {typed last name y : Text}

/-- A typed path without wildcards, gaps and dots: only its last component may be empty, and none
is a single or a double dot. -/
structure Straight (typed : Text) : Prop where
  no_wildcard : '*' ∉ typed ∧ '?' ∉ typed ∧ '[' ∉ typed
  no_gap : [] ∉ (Text.splitOn '/' typed).dropLast
  no_dots : ['.'] ∉ Text.splitOn '/' typed ∧ ['.', '.'] ∉ Text.splitOn '/' typed

theorem Straight.literal (h : Straight typed) : Literal typed := by
  obtain ⟨hstar, hany, hclass⟩ := h.no_wildcard
  intro c hc
  exact ⟨fun he => hany (he ▸ hc), fun he => hstar (he ▸ hc), fun he => hclass (he ▸ hc)⟩

def entriesAt (es : List (Text × DiskNode)) (names : List Text) : List (Text × DiskNode) :=
  ((DiskNode.find? names (.directory es)).map DiskNode.entries).getD []

/-- The paths that a typed path may be completed to, each with what it leads to. -/
def completions (es : List (Text × DiskNode)) (typed : Text) : List (Text × DiskNode) :=
  let names := (Text.splitOn '/' typed).dropLast
  let last := (Text.splitOn '/' typed).getLastD []
  ((entriesAt es names).filter fun e => last.isPrefixOf e.1).map fun e =>
    (Text.leadOf '/' names ++ e.1, e.2)

theorem completions_eq (hnames : ∀ c ∈ names, '/' ∉ c) (hlast : '/' ∉ last) :
    completions es (Text.leadOf '/' names ++ last) =
      ((entriesAt es names).filter fun e => last.isPrefixOf e.1).map fun e =>
        (Text.leadOf '/' names ++ e.1, e.2) := by
  simp [completions, Text.splitOn_leadOf_append hnames, Text.splitOn_of_notMem hlast]

theorem wellFormed_entriesAt (hes : (directory es).WellFormed) (names : List Text) :
    (directory (entriesAt es names)).WellFormed := by
  unfold entriesAt
  cases h : DiskNode.find? names (.directory es) with
  | none => exact .directory List.Pairwise.nil (by simp) (by simp)
  | some n => exact wellFormed_entries (Disk.find?_wellFormed hes h)

theorem nodeAt_leadOf (hnames : ∀ c ∈ names, '/' ∉ c) (hname : '/' ∉ name) :
    nodeAt es (Text.leadOf '/' names ++ name) = Entries.find? name (entriesAt es names) := by
  rw [nodeAt, Text.splitOn_leadOf_append hnames, Text.splitOn_of_notMem hname, Disk.find?_append,
    entriesAt]
  cases h : DiskNode.find? names (.directory es) with
  | none => rfl
  | some n => exact find?_name name n

theorem mem_completions {p : Text} {n : DiskNode} (hes : (directory es).WellFormed) :
    (p, n) ∈ completions es typed ↔ nodeAt es p = some n ∧ ∃ y, '/' ∉ y ∧ p = typed ++ y := by
  obtain ⟨names, last, hnames, hlast, rfl⟩ := Text.exists_leadOf '/' typed
  rw [completions_eq hnames hlast, List.mem_map]
  constructor
  · rintro ⟨e, he, heq⟩
    obtain ⟨hmem, hpre⟩ := List.mem_filter.1 he
    obtain ⟨y, hy⟩ := List.isPrefixOf_iff_prefix.1 hpre
    obtain ⟨rfl, rfl⟩ := Prod.mk.inj heq
    cases wellFormed_entriesAt hes names with
    | directory hasc hvalid _ =>
      have hsep := (hvalid e hmem).no_separator
      refine ⟨?_, y, fun hc => hsep (hy ▸ List.mem_append_right _ hc), by simp [← hy]⟩
      rw [nodeAt_leadOf hnames hsep, Entries.find?_of_mem hasc hmem]
  · rintro ⟨hnode, y, hy, rfl⟩
    have hname : '/' ∉ last ++ y := by simp [hlast, hy]
    rw [List.append_assoc, nodeAt_leadOf hnames hname] at hnode
    refine ⟨(last ++ y, n), List.mem_filter.2 ⟨Entries.mem_of_find? hnode, ?_⟩, by simp⟩
    exact List.isPrefixOf_iff_prefix.2 ⟨y, rfl⟩

theorem pairwise_completions (hes : (directory es).WellFormed) (typed : Text) :
    ((completions es typed).map Prod.fst).Pairwise (· < ·) := by
  rw [completions, List.map_map]
  refine List.pairwise_map.2 (List.Pairwise.filter _ ?_)
  cases wellFormed_entriesAt hes (Text.splitOn '/' typed).dropLast with
  | directory hasc _ _ => exact hasc.imp fun h => List.append_left_lt h

theorem gapless_of_nodeAt {p : Text} {n : DiskNode} (hes : (directory es).WellFormed)
    (h : nodeAt es p = some n) : Listing.Gapless p :=
  fun hmem => (Disk.validName_of_find? hes h [] hmem).ne_nil rfl

variable {l : Listing} {before after : Text}

def completed (before after : Text) (c : Text × DiskNode) : Text :=
  match c.2.kind with
  | .directory => before ++ c.1 ++ '/' :: after
  | .file => before ++ c.1 ++ after

theorem completed_eq (c : Text × DiskNode) :
    completed before after c = before ++ (opened c.1 c.2.kind ++ after) := by
  obtain ⟨p, n⟩ := c
  cases n <;> simp [completed, opened, DiskNode.kind]

theorem pathForm_of_kind {files : FileSystem} {p : Text} {n : DiskNode}
    (h : files.kind p = .ok n.kind) :
    pathForm files before after p = some (completed before after (p, n)) := by
  rw [completed_eq]
  exact pathForm_eq_opened h

section Listing

variable (hes : (directory es).WellFormed)
  (hl : ∀ k, l.entries.find? k = (nodeAt es k).map DiskNode.kind)

include hl

theorem mem_keys_iff_nodeAt {k : Text} : k ∈ l.entries.keys ↔ ∃ n, nodeAt es k = some n := by
  rw [Table.mem_keys_iff, hl, Option.isSome_map, Option.isSome_iff_exists]

include hes

theorem treeShaped_of_nodeAt : Listing.TreeShaped l where
  gapless k hk := by
    obtain ⟨n, hn⟩ := (mem_keys_iff_nodeAt hl).1 hk
    exact gapless_of_nodeAt hes hn
  closed k hk p hp := by
    rw [mem_keys_iff_nodeAt hl] at hk ⊢
    rcases hp with rfl | ⟨rest, rfl⟩
    · exact hk
    · obtain ⟨n, hn⟩ := hk
      rw [List.append_assoc, List.singleton_append] at hn
      obtain ⟨es', hes'⟩ := exists_directory_of_nodeAt hn
      exact ⟨_, hes'⟩

theorem continuing_eq (typed : Text) :
    l.continuing typed = (completions es typed).map fun c => (c.1, c.2.kind) := by
  have : Std.Irrefl (fun e f : Text × EntryKind => e.1 < f.1) := ⟨fun e => List.lt_irrefl e.1⟩
  refine List.Pairwise.eq_of_mem_iff (Listing.pairwise_continuing l typed) ?_ fun e => ?_
  · exact List.pairwise_map.2 (List.pairwise_map.1 (pairwise_completions hes typed))
  · obtain ⟨k, kind⟩ := e
    rw [Listing.mem_continuing_iff, hl, Option.map_eq_some_iff, List.mem_map]
    constructor
    · rintro ⟨⟨n, hn, rfl⟩, more, rfl, hmore⟩
      exact ⟨(typed ++ more, n), (mem_completions hes).2 ⟨hn, more, hmore, rfl⟩, rfl⟩
    · rintro ⟨⟨p, n⟩, hmem, heq⟩
      obtain ⟨rfl, rfl⟩ := Prod.mk.inj heq
      obtain ⟨hn, more, hmore, rfl⟩ := (mem_completions hes).1 hmem
      exact ⟨⟨n, hn, rfl⟩, more, rfl, hmore⟩

theorem listing_pathForms {line : Text} (h : Literal typed)
    (hline : Query.importSpan? line = some (before, typed, after)) (limit : Nat) :
    pathForms l.fileSystem limit line =
      .ok (((completions es typed).take limit).map (completed before after)) := by
  rw [pathForms_of_treeShaped (treeShaped_of_nodeAt hes hl) h hline, continuing_eq hes hl,
    ← List.map_take, List.map_map]
  exact congrArg Except.ok (List.map_congr_left fun c _ => (completed_eq c).symm)

end Listing

end Source
end ManifestShell
