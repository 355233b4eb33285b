import ManifestShell.Proofs.JsonCharacters
import ManifestShell.Proofs.TypedCommands

/-! Listings of variables that are entered again.
A plain listing has a line for each variable.  No value breaks a line, because line breaks within
texts are escaped, and none has blanks at its ends that would be lost.  So each line can be turned
into the command that binds its variable, and a session that starts without variables ends with the
same table. -/
namespace ManifestShell

open Text

theorem isBlank_of_between {a b c : Char} (hlow : a ≤ c) (hhigh : c ≤ b) (ha : 0x20 < a.toNat)
    (hb : b.toNat < 0x7f) : isBlank c = false := by
  have hac : a.toNat ≤ c.toNat := hlow
  have hcb : c.toNat ≤ b.toNat := hhigh
  simp only [isBlank, Bool.or_eq_false_iff, Bool.and_eq_false_iff, decide_eq_false_iff_not,
    beq_eq_false_iff_ne]
  omega

namespace Json

variable {d : Nat} {v : Json}

theorem isBlank_of_mem_intText {i : Int} {c : Char} (h : c ∈ FloatLayout.intText i) :
    isBlank c = false := by
  have hdigit (hc : c ∈ Text.ofNat i.natAbs) : isBlank c = false := by
    have hbounds : '0' ≤ c ∧ c ≤ '9' := by simpa [isDigit] using isDigit_of_mem_ofNat hc
    exact isBlank_of_between hbounds.1 hbounds.2 (by decide) (by decide)
  unfold FloatLayout.intText at h
  split_ifs at h
  · rcases List.mem_cons.1 h with rfl | h
    · decide
    · exact hdigit h
  · exact hdigit h

theorem tight_enclosed {a b : Char} (ha : isBlank a = false) (hb : isBlank b = false) (t : Text) :
    Tight (a :: t ++ [b]) := by
  constructor
  · simp [ha]
  · intro c hc
    obtain rfl : b = c := by simpa only [List.getLast?_concat, Option.some.injEq] using hc
    exact hb

theorem tight_compact (h : Whole d v) : Tight (compact v) := by
  cases h with
  | null => decide
  | bool b => cases b <;> decide
  | int => exact tight_of_notBlank fun c => isBlank_of_mem_intText
  | str t => exact tight_enclosed (by decide) (by decide) _
  | arr => exact tight_enclosed (by decide) (by decide) _
  | obj => exact tight_enclosed (by decide) (by decide) _

end Json

namespace Command

open Json

variable {n : Text} {v : Json}

theorem IsName.isWord_dollar (h : IsName n) : IsWord ('$' :: n) := by
  obtain ⟨c, cs, rfl, hc, hcs⟩ := h
  have hupper {x : Char} (hx : 'A' ≤ x ∧ x ≤ 'Z') : isBlank x = false :=
    isBlank_of_between hx.1 hx.2 (by decide) (by decide)
  have hlower {x : Char} (hx : 'a' ≤ x ∧ x ≤ 'z') : isBlank x = false :=
    isBlank_of_between hx.1 hx.2 (by decide) (by decide)
  refine ⟨by simp, List.forall_mem_cons.2 ⟨by decide, List.forall_mem_cons.2 ⟨?_, ?_⟩⟩⟩
  · rcases hc with hc | hc | rfl
    · exact hupper hc
    · exact hlower hc
    · decide
  · intro x hx
    rcases hcs x hx with hx | hx | hx | rfl | rfl
    · exact hupper hx
    · exact hlower hx
    · exact isBlank_of_between hx.1 hx.2 (by decide) (by decide)
    · decide
    · decide

/-- The command that a line of a listing stands for: the variable and the value stay, the sign
between them goes. -/
def rebindLine (line : Text) : Text :=
  bindLine (line.takeWhile (· ≠ ' ')) ((line.dropWhile (· ≠ ' ')).drop 3)

def replay (listing : Text) : List Text := (splitOn '\n' listing).map rebindLine

def listed (b : Text × Json) : Text := '$' :: b.1 ++ " = ".toList ++ compact b.2

theorem rebindLine_listed {b : Text × Json} (h : IsName b.1) :
    rebindLine (listed b) = bindLine ('$' :: b.1) (compact b.2) := by
  have hword : ∀ c ∈ '$' :: b.1, decide (c ≠ ' ') = true := fun c hc => by
    have hblank := h.isWord_dollar.not_blank c hc
    rw [decide_eq_true_eq]
    rintro rfl
    exact absurd hblank (by decide)
  have htext : listed b = ('$' :: b.1) ++ ' ' :: '=' :: ' ' :: compact b.2 := by simp [listed]
  rw [rebindLine, htext, List.takeWhile_append_of_pos hword, List.dropWhile_append_of_pos hword]
  simp

theorem parse_bindLine_compact (hn : IsName n) (hv : Whole maxDepth v) :
    parse (bindLine ('$' :: n) (compact v)) = .ok (.bind n v) := by
  have hvalue : parseOrText (compact v) = v := by rw [parseOrText, parse?_compact hv]; rfl
  rw [parse_bindLine hn.isWord_dollar (tight_compact hv) (compact_ne_nil hv),
    variableName_eq_ok_iff.2 (.dollar hn), hvalue]
  rfl

end Command

namespace Session

open Command Json

variable {bs : List (Text × Json)}

theorem bindings_plain (bs : List (Text × Json)) (h : bs ≠ []) :
    Printer.bindings ⟨.plain, false⟩ bs = joinLines (bs.map listed) := by
  have hbare (t : Text) : Painter.candidate ⟨false⟩ t = t := by
    simp [Painter.candidate, Painter.apply]
  have hline : Printer.bindingText ⟨.plain, false⟩ = listed :=
    funext fun b => by simp [Printer.bindingText, Printer.painter, hbare, listed]
  simp [Printer.bindings, h, hline]

theorem splitOn_joinLines_listed (hnames : ∀ b ∈ bs, IsName b.1) (hne : bs ≠ []) :
    splitOn '\n' (joinLines (bs.map listed)) = bs.map listed := by
  rw [splitOn_eq, joinLines]
  refine List.splitOn_intercalate '\n' (List.forall_mem_map.2 fun b hb => ?_) (by simpa using hne)
  have hname : '\n' ∉ '$' :: b.1 := fun hmem =>
    absurd ((hnames b hb).isWord_dollar.not_blank _ hmem) (by decide)
  rw [listed, List.mem_append, List.mem_append, not_or, not_or]
  exact ⟨⟨hname, by decide⟩, notMem_compact (by decide) b.2⟩

theorem enterAll_rebind (hnames : ∀ b ∈ bs, IsName b.1) (hvalues : ∀ b ∈ bs, Whole maxDepth b.2)
    (e : Engine) (s : Session) :
    s.enterAll e (bs.map fun b => rebindLine (listed b)) =
      (bs.foldl (fun s b => s.bind b.1 b.2) s, bs.map fun _ => .output none) := by
  induction bs generalizing s with
  | nil => rfl
  | cons b bs ih =>
    obtain ⟨hname, hnames⟩ := List.forall_mem_cons.1 hnames
    obtain ⟨hvalue, hvalues⟩ := List.forall_mem_cons.1 hvalues
    have henter : s.enter e (rebindLine (listed b)) = (s.bind b.1 b.2, .output none) := by
      rw [rebindLine_listed hname, enter, parse_bindLine_compact hname hvalue]
      rfl
    rw [List.map_cons, enterAll, henter]
    simp only [ih hnames hvalues, List.foldl_cons, List.map_cons]

/-- A plain listing without colours has one line for each variable, in ascending order of the names.
With the value text of its line each variable is bound to its value again, and the commands that the
listing stands for rebuild the whole table in a session that has no variables. -/
theorem listing_rebuilds_bindings (e : Engine) (s s₀ : Session) (hformat : s.format = .plain)
    (hcolor : s.color = false) (hne : s.bindings.entries ≠ [])
    (hnames : ∀ b ∈ s.bindings.entries, IsName b.1)
    (hvalues : ∀ b ∈ s.bindings.entries, Whole maxDepth b.2) (hempty : s₀.bindings = Table.empty) :
    ∃ listing, s.enter e ".bindings" = (s, .output (some listing)) ∧
      splitOn '\n' listing =
        s.bindings.entries.map (fun b => '$' :: b.1 ++ " = ".toList ++ compact b.2) ∧
      (s.bindings.keys.Pairwise fun m n => bytes m < bytes n) ∧
      (∀ b ∈ s.bindings.entries,
        parse (".bind ".toList ++ '$' :: b.1 ++ ' ' :: compact b.2) = .ok (.bind b.1 b.2)) ∧
      s₀.enterAll e (replay listing) =
        ({ s₀ with bindings := s.bindings },
          s.bindings.entries.map fun _ => .output none) := by
  have hsplit := splitOn_joinLines_listed hnames hne
  refine ⟨joinLines (s.bindings.entries.map listed), ?_, hsplit, pairwise_keys _, ?_, ?_⟩
  · have hparse : parse ".bindings" = .ok .bindings := rfl
    have hprinter : s.printer = ⟨.plain, false⟩ := by rw [printer, hformat, hcolor]
    rw [enter, hparse]
    change (s, LineResult.output (some (s.printer.bindings s.bindings.entries))) = _
    rw [hprinter, bindings_plain _ hne]
  · intro b hb
    have hline : ".bind ".toList ++ '$' :: b.1 ++ ' ' :: compact b.2 =
        bindLine ('$' :: b.1) (compact b.2) := rfl
    rw [hline, parse_bindLine_compact (hnames b hb) (hvalues b hb)]
  · have htable : s.bindings.entries.foldl (fun t b => t.insert b.1 b.2) Table.empty = s.bindings :=
      Table.ofList_entries s.bindings
    rw [replay, hsplit, List.map_map]
    change s₀.enterAll e (s.bindings.entries.map fun b => rebindLine (listed b)) = _
    rw [enterAll_rebind hnames hvalues, foldl_bind, hempty, htable]

/-- A nested value with the bounds of whole numbers and a text that needs escapes of three kinds and
has blanks at its ends. -/
theorem listing_of_nested_values :
    let e := Engine.ofSettings {}
    let s₀ := Session.new Table.empty Listing.empty.fileSystem { colorOutput := false }
    let text : Text := [' ', '"', '\n', Char.ofNat 1, ' ']
    let items := [int (-9223372036854775808), int 18446744073709551615, arr []]
    let nested := obj [("", arr items), ("k", str text)]
    let s := (s₀.bind "z" (bool true)).bind "_a-1" nested
    let object : Text :=
      "\x7b\"\":[-9223372036854775808,18446744073709551615,[]],\"k\":\" \\\"\\n\\u0001 \"\x7d"
    let listing := joinLines ["$_a-1 = ".toList ++ object, "$z = true"]
    s.bindings.entries ≠ [] ∧ (∀ b ∈ s.bindings.entries, IsName b.1) ∧
      (∀ b ∈ s.bindings.entries, Whole maxDepth b.2) ∧
      s.enter e ".bindings" = (s, .output (some listing)) ∧
      (splitOn '\n' listing).length = 2 ∧
      s₀.enterAll e (replay listing) = (s, [.output none, .output none]) := by
  intro e s₀ text items nested s object listing
  have hentries : s.bindings.entries = [("_a-1".toList, nested), ("z".toList, bool true)] := rfl
  have hne : s.bindings.entries ≠ [] := by simp [hentries]
  have hnames : ∀ b ∈ s.bindings.entries, IsName b.1 := by
    simp only [hentries, List.forall_mem_cons, ← isVariableName_iff]
    decide
  have hnested : Whole maxDepth nested := by
    have hitems : ∀ v ∈ items, Whole 125 v := by
      simp only [items, List.forall_mem_cons]
      exact ⟨.int (by decide) (by decide), .int (by decide) (by decide), .arr (by simp), by simp⟩
    refine .obj (by simp [Entries.Ascending]) ?_
    simp only [List.forall_mem_cons]
    exact ⟨.arr hitems, .str text, by simp⟩
  have hvalues : ∀ b ∈ s.bindings.entries, Whole maxDepth b.2 := by
    simp only [hentries, List.forall_mem_cons]
    exact ⟨hnested, .bool true, by simp⟩
  have henter : s.enter e ".bindings" = (s, .output (some listing)) := by rfl
  obtain ⟨t, ht, hsplit, _, _, hreplay⟩ :=
    listing_rebuilds_bindings e s s₀ rfl rfl hne hnames hvalues rfl
  have hsame : (s, LineResult.output (some t)) = (s, .output (some listing)) := ht.symm.trans henter
  obtain rfl : t = listing := Option.some.inj (LineResult.output.inj (Prod.mk.inj hsame).2)
  refine ⟨hne, hnames, hvalues, henter, ?_, hreplay⟩
  rw [hsplit, hentries]
  rfl

end Session
end ManifestShell
