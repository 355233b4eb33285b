import Mathlib.Data.List.Infix
import ManifestShell.Completion.Hint
import ManifestShell.Files
import ManifestShell.Proofs.Replacement
import ManifestShell.Shell.Session

/-! Which hint is shown behind a line, and what becomes of the line as the hint is accepted.
The history is searched for the newest entry that begins with the line.  An entry that is the line
itself begins with it too and ends the search, so it hides all older entries that would extend the
line.  Where no entry counts, the hint is the rest of the only suggestion that extends the line.
Where one does, the hint can be accepted token by token: each token makes the line longer, the
newest entry that begins with the line stays the same, and in the end it is reached. -/
namespace ManifestShell

theorem Text.byteSize_pos_iff {t : Text} : 0 < byteSize t ↔ t ≠ [] := by
  cases t with
  | nil => simp [byteSize]
  | cons c t =>
    have hc : 0 < c.utf8Size := Char.utf8Size_pos c
    simp only [byteSize, ne_eq, reduceCtorEq, not_false_eq_true, iff_true]
    omega

theorem Text.longer_iff {line v : Text} :
    line <+: v ∧ byteSize line < byteSize v ↔ ∃ rest, rest ≠ [] ∧ v = line ++ rest := by
  constructor
  · rintro ⟨⟨rest, rfl⟩, hlt⟩
    rw [byteSize_append] at hlt
    exact ⟨rest, byteSize_pos_iff.1 (by omega), rfl⟩
  · rintro ⟨rest, hne, rfl⟩
    have hpos := byteSize_pos_iff.2 hne
    rw [byteSize_append]
    exact ⟨List.prefix_append line rest, by omega⟩

theorem Text.blank_append_eq_false {t : Text} (h : blank t = false) (u : Text) :
    blank (t ++ u) = false := by
  rw [blank, List.all_append, ← blank, h, Bool.false_and]

/-! ### What a hinter shows and keeps -/

theorem Hint.find_at_end (e : Engine) (c : Context) (h : History) {line : Text}
    (hline : Text.blank line = false) :
    find e c h line (Text.byteSize line) =
      ((fromHistory? h line).or (fromCompletion? e c line)).getD [] := by
  simp [find, hline]

namespace Hinter

/-- Whatever was kept before, the hint for the line is kept and shown. -/
theorem handle_eq (k : Hinter) (c : Context) (h : History) (line : Text) (pos : Nat)
    (color : Bool) :
    k.handle c h line pos color =
      (⟨k.engine, Hint.find k.engine c h line pos⟩,
        Hint.paint color (Hint.find k.engine c h line pos)) := by
  have hnone : Hint.paint color [] = [] := by simp [Hint.paint]
  unfold handle
  cases Hint.find k.engine c h line pos with
  | nil => rw [hnone]; rfl
  | cons ch rest => rfl

/-- What is shown without color if the cursor is at the end of the line. -/
def handleAtEnd (k : Hinter) (c : Context) (h : History) (line : Text) : Hinter × Text :=
  k.handle c h line (Text.byteSize line) false

theorem handleAtEnd_eq (k : Hinter) (c : Context) (h : History) {line : Text}
    (hline : Text.blank line = false) :
    let hint := ((Hint.fromHistory? h line).or (Hint.fromCompletion? k.engine c line)).getD []
    k.handleAtEnd c h line = (⟨k.engine, hint⟩, hint) := by
  simp [handleAtEnd, handle_eq, Hint.find_at_end k.engine c h hline, Hint.paint]

end Hinter

/-! ### The newest entry that extends the line -/

namespace History

/-- The newest entry that is longer than the line and begins with it: what it adds to the line, and
the entries after it. -/
structure NewestExtension (h : History) (line rest : Text) (newer : List Text) : Prop where
  entry : ∃ older, h.entries = older ++ (line ++ rest) :: newer
  longer : rest ≠ []
  newest : ∀ t ∈ newer, line <+: t → t = line

theorem exists_newestExtension {h : History} {line : Text}
    (hext : ∃ t ∈ h.entries, line <+: t ∧ t ≠ line) :
    ∃ rest newer, h.NewestExtension line rest newer := by
  obtain ⟨capacity, entries⟩ := h
  simp only at hext
  induction entries using List.reverseRecOn with
  | nil => simp at hext
  | append_singleton entries last ih =>
    by_cases hlast : line <+: last ∧ last ≠ line
    · obtain ⟨⟨rest, rfl⟩, hne⟩ := hlast
      exact ⟨rest, [], ⟨entries, rfl⟩, by simpa using hne, by simp⟩
    · have hlast' : line <+: last → last = line := fun hp => by_contra fun hne => hlast ⟨hp, hne⟩
      have hold : ∃ t ∈ entries, line <+: t ∧ t ≠ line := by
        obtain ⟨t, ht, hp⟩ := hext
        rcases List.mem_append.1 ht with ht | ht
        · exact ⟨t, ht, hp⟩
        · exact absurd (List.mem_singleton.1 ht ▸ hp) hlast
      obtain ⟨rest, newer, ⟨older, hentries⟩, hlonger, hnewest⟩ := ih hold
      refine ⟨rest, newer ++ [last], ⟨older, ?_⟩, hlonger, ?_⟩
      · simp only at hentries
        simp [hentries]
      · intro t ht
        rcases List.mem_append.1 ht with ht | ht
        · exact hnewest t ht
        · exact List.mem_singleton.1 ht ▸ hlast'

variable {h : History} {line rest : Text} {newer : List Text}

/-- The search stops at the newest entry that begins with the line, be it the line itself. -/
theorem NewestExtension.newest? (hx : h.NewestExtension line rest newer) :
    h.newest? line = some (if line ∈ newer then line else line ++ rest) := by
  obtain ⟨⟨older, hentries⟩, _, hnewest⟩ := hx
  have hsearch : h.newest? line =
      (newer.reverse.find? (Text.startsWith line)).or (some (line ++ rest)) := by
    simp [History.newest?, hentries]
  rw [hsearch]
  split_ifs with hline
  · cases hfind : newer.reverse.find? (Text.startsWith line) with
    | none =>
      have hnone := List.find?_eq_none.1 hfind line (List.mem_reverse.2 hline)
      simp at hnone
    | some t =>
      have ht : line <+: t := Text.startsWith_iff.1 (List.find?_some hfind)
      have hmem : t ∈ newer := List.mem_reverse.1 (List.mem_of_find?_eq_some hfind)
      simp [hnewest t hmem ht]
  · have hnone : newer.reverse.find? (Text.startsWith line) = none := by
      refine List.find?_eq_none.2 fun t ht hstart => hline ?_
      have hmem := List.mem_reverse.1 ht
      exact hnewest t hmem (Text.startsWith_iff.1 hstart) ▸ hmem
    simp [hnone]

end History

namespace Hint

variable {h : History} {line rest : Text} {newer : List Text}

theorem fromHistory?_of_newestExtension (hx : h.NewestExtension line rest newer) :
    fromHistory? h line = if line ∈ newer then none else some rest := by
  obtain ⟨c, cs, hrest⟩ := List.exists_cons_of_ne_nil hx.longer
  have hwhole : Text.dropStart? line line = some [] :=
    Text.dropStart?_eq_some_iff.2 (List.append_nil line).symm
  have hpart : Text.dropStart? line (line ++ rest) = some rest := Text.dropStart?_eq_some_iff.2 rfl
  rw [fromHistory?, hx.newest?]
  split_ifs
  · simp [hwhole]
  · rw [Option.bind_some, hpart, hrest]

end Hint

/-! ### The only suggestion that extends the line -/

theorem History.find?_reverse_eq_none {entries : List Text} {line : Text}
    (h : ∀ t ∈ entries, ¬ line <+: t) :
    entries.reverse.find? (Text.startsWith line) = none :=
  List.find?_eq_none.2 fun t ht hstart =>
    h t (List.mem_reverse.1 ht) (Text.startsWith_iff.1 hstart)

namespace Hint

variable {e : Engine} {c : Context} {h : History} {line rest : Text}

def Adds (e : Engine) (c : Context) (line rest : Text) : Prop :=
  rest ≠ [] ∧ ∃ t ∈ e.candidates line c, replacement line t = line ++ rest

/-- The value is suggested at the end of the line, begins with the line and is longer. -/
def Extends (e : Engine) (c : Context) (line v : Text) : Prop :=
  v ∈ (suggestions e c line (Text.byteSize line)).map Suggestion.value ∧
    line <+: v ∧ Text.byteSize line < Text.byteSize v

theorem extends_iff {v : Text} :
    Extends e c line v ↔ ∃ rest, Adds e c line rest ∧ v = line ++ rest := by
  have htyped : typedPart line (Text.byteSize line) = line := by
    simpa using typedPart_append line []
  rw [Extends, Text.longer_iff, values_suggestions, htyped, mem_distinct, List.mem_map]
  constructor
  · rintro ⟨⟨t, ht, rfl⟩, rest, hne, hrest⟩
    exact ⟨rest, ⟨hne, t, ht, hrest⟩, hrest⟩
  · rintro ⟨rest, ⟨hne, t, ht, hrest⟩, rfl⟩
    exact ⟨⟨t, ht, hrest⟩, rest, hne, rfl⟩

/-- A completion is hinted exactly if all candidates that add something add the same. -/
theorem fromCompletion?_eq_some_iff :
    fromCompletion? e c line = some rest ↔
      Adds e c line rest ∧ ∀ r, Adds e c line r → r = rest := by
  unfold fromCompletion?
  extract_lets rests
  have hmem (r : Text) : r ∈ rests ↔ Adds e c line r := by
    rw [List.mem_filterMap, Adds, ← exists_and_left]
    refine exists_congr fun t => ?_
    rw [and_left_comm]
    refine and_congr_right fun _ => ?_
    rw [← Text.dropStart?_eq_some_iff]
    cases hd : Text.dropStart? line (replacement line t) with
    | none => simp
    | some d =>
      cases d with
      | nil =>
        simp only [reduceCtorEq, Option.some.injEq, false_iff, not_and]
        exact fun hne heq => hne heq.symm
      | cons b bs =>
        simp only [Option.some.injEq, iff_and_self]
        rintro rfl
        simp
  simp only [← hmem]
  cases rests with
  | nil => simp
  | cons only others =>
    simp only [List.mem_cons, forall_eq_or_imp, List.all_eq_true, decide_eq_true_eq]
    constructor
    · intro hsome
      split_ifs at hsome with hall
      obtain rfl := Option.some.inj hsome
      exact ⟨Or.inl rfl, rfl, hall⟩
    · rintro ⟨_, rfl, hall⟩
      rw [if_pos hall]

theorem fromCompletion?_eq_some_iff_only :
    fromCompletion? e c line = some rest ↔
      (∃! v, Extends e c line v) ∧ Extends e c line (line ++ rest) := by
  rw [fromCompletion?_eq_some_iff]
  constructor
  · rintro ⟨hrest, honly⟩
    have hext : Extends e c line (line ++ rest) := extends_iff.2 ⟨rest, hrest, rfl⟩
    refine ⟨⟨line ++ rest, hext, fun v hv => ?_⟩, hext⟩
    obtain ⟨r, hr, rfl⟩ := extends_iff.1 hv
    rw [honly r hr]
  · rintro ⟨hone, hext⟩
    obtain ⟨r, hrest, heq⟩ := extends_iff.1 hext
    obtain rfl := List.append_cancel_left heq
    exact ⟨hrest, fun r' hr' => List.append_cancel_left
      (hone.unique (extends_iff.2 ⟨r', hr', rfl⟩) hext)⟩

/-- The hint is the rest of the only suggestion that extends the line, or nothing if there is no
such suggestion or more than one. -/
def FromMenu (e : Engine) (c : Context) (line hint : Text) : Prop :=
  ((∃! v, Extends e c line v) → Extends e c line (line ++ hint)) ∧
    ((¬ ∃! v, Extends e c line v) → hint = [])

theorem fromMenu_fromCompletion? : FromMenu e c line ((fromCompletion? e c line).getD []) := by
  cases hc : fromCompletion? e c line with
  | none =>
    refine ⟨fun hone => ?_, fun _ => rfl⟩
    have ⟨v, hv, _⟩ := hone
    obtain ⟨rest, _, rfl⟩ := extends_iff.1 hv
    rw [fromCompletion?_eq_some_iff_only.2 ⟨hone, hv⟩] at hc
    cases hc
  | some rest =>
    obtain ⟨hone, hext⟩ := fromCompletion?_eq_some_iff_only.1 hc
    exact ⟨fun _ => hext, fun hnot => absurd hone hnot⟩

theorem fromHistory?_eq_none (hnew : ∀ t ∈ h.entries, ¬ line <+: t) :
    fromHistory? h line = none := by
  have hnone : h.newest? line = none := History.find?_reverse_eq_none hnew
  simp [fromHistory?, hnone]

end Hint

def Hint.bareSession : Session := Session.new Table.empty Listing.empty.fileSystem {}

namespace Hinter

open Hint

/-- A line that the history extends.

What is shown and kept is the rest of the newest entry that extends the line, unless the line itself
was entered after that entry: then the history counts for nothing, and the hint is that of the menu.
So the newest extension is shown exactly if the line was not entered again, or if the only
suggestion that extends the line happens to be the same. -/
theorem newest_extension_shown_iff (k : Hinter) (s : Session) (h : History) (line : Text)
    (hline : Text.blank line = false) (hext : ∃ t ∈ h.entries, line <+: t ∧ t ≠ line) :
    let shown := k.handleAtEnd s.context h line
    (∃ rest newer, h.NewestExtension line rest newer) ∧
    ∀ rest newer, h.NewestExtension line rest newer →
      (line ∉ newer → shown.2 = rest) ∧
      (line ∈ newer → FromMenu k.engine s.context line shown.2) ∧
      shown.1.fullHint = shown.2 ∧
      (shown.2 = rest ∧ shown.1.fullHint = rest ↔ line ∉ newer ∨
        (∃! v, Extends k.engine s.context line v) ∧
          Extends k.engine s.context line (line ++ rest)) := by
  intro shown
  refine ⟨History.exists_newestExtension hext, fun rest newer hx => ?_⟩
  have hshown : shown = (⟨k.engine, shown.2⟩, shown.2) := by
    simp only [shown, handleAtEnd_eq k s.context h hline]
  have hfull : shown.1.fullHint = shown.2 := by rw [hshown]; rfl
  have hhint : shown.2 =
      if line ∈ newer then (fromCompletion? k.engine s.context line).getD [] else rest := by
    simp only [shown, handleAtEnd_eq k s.context h hline, fromHistory?_of_newestExtension hx]
    split_ifs <;> simp
  rw [hfull, and_self]
  by_cases hagain : line ∈ newer
  · rw [if_pos hagain] at hhint
    refine ⟨absurd hagain, fun _ => hhint ▸ fromMenu_fromCompletion?, rfl, ?_⟩
    rw [← fromCompletion?_eq_some_iff_only, hhint]
    cases hc : fromCompletion? k.engine s.context line with
    | none => simp [hagain, hx.longer.symm]
    | some only => simp [hagain]
  · rw [if_neg hagain] at hhint
    exact ⟨fun _ => hhint, fun hmem => absurd hmem hagain, rfl, iff_of_true hhint (Or.inl hagain)⟩

/-- The line stands in the history before its extension and does no harm there; what was kept is
replaced. -/
theorem older_line_hides_nothing :
    let k : Hinter := ⟨Engine.ofSettings {}, "kept"⟩
    let h : History := ⟨1000, ["alpha", "alpha beta", "gamma"]⟩
    let shown := k.handleAtEnd bareSession.context h "alpha"
    Text.blank "alpha" = false ∧ (∃ t ∈ h.entries, ("alpha" : Text) <+: t ∧ t ≠ "alpha") ∧
      h.NewestExtension "alpha" " beta" ["gamma".toList] ∧
      ("alpha" : Text) ∉ ["gamma".toList] ∧ shown.2 = " beta" ∧ shown.1.fullHint = " beta" := by
  intro k h shown
  have hblank : Text.blank "alpha" = false := by decide
  have hext : ∃ t ∈ h.entries, ("alpha" : Text) <+: t ∧ t ≠ "alpha" :=
    ⟨"alpha beta", by decide, by decide, by decide⟩
  have hx : h.NewestExtension "alpha" " beta" ["gamma".toList] :=
    ⟨⟨["alpha"], rfl⟩, by decide, by decide⟩
  have hnewer : ("alpha" : Text) ∉ ["gamma".toList] := by decide
  obtain ⟨_, _, _, hiff⟩ :=
    (newest_extension_shown_iff k bareSession h "alpha" hblank hext).2 _ _ hx
  exact ⟨hblank, hext, hx, hnewer, hiff.2 (Or.inl hnewer)⟩

/-- Once the line itself is entered, the entry that extends it is no longer found. -/
theorem entered_line_hides_extension :
    let k : Hinter := ⟨Engine.ofSettings {}, "kept"⟩
    let h := ((⟨1000, []⟩ : History).remember "alpha beta").remember "alpha"
    let shown := k.handleAtEnd bareSession.context h "alpha"
    h.NewestExtension "alpha" " beta" ["alpha"] ∧ Text.blank "alpha" = false ∧
      shown.2 = [] ∧ shown.1.fullHint = [] := by
  intro k h shown
  refine ⟨⟨⟨[], by rfl⟩, by decide, ?_⟩, by decide, by rfl, by rfl⟩
  intro t ht _
  exact List.mem_singleton.1 ht

/-- The hint agrees with the menu, whatever hint was kept before. -/
theorem hint_agrees_with_menu (k : Hinter) (s : Session) (h : History) (line : Text)
    (hline : Text.blank line = false) (hnew : ∀ t ∈ h.entries, ¬ line <+: t) :
    let shown := k.handleAtEnd s.context h line
    ((∃! v, Extends k.engine s.context line v) →
      Extends k.engine s.context line (line ++ shown.2)) ∧
    ((¬ ∃! v, Extends k.engine s.context line v) → shown.2 = []) ∧
    shown.1.fullHint = shown.2 := by
  intro shown
  have hshown : shown.2 = (fromCompletion? k.engine s.context line).getD [] := by
    simp only [shown, handleAtEnd_eq k s.context h hline, fromHistory?_eq_none hnew, Option.none_or]
  obtain ⟨hone, hnone⟩ : FromMenu k.engine s.context line shown.2 :=
    hshown ▸ fromMenu_fromCompletion?
  exact ⟨hone, hnone, by simp only [shown, handleAtEnd_eq k s.context h hline, fullHint]⟩

/-- Two candidates, with and without a colon, stand for the same line: it is the only one in the
menu and its rest is hinted, in place of the hint that was kept. -/
theorem hint_of_two_spellings :
    let k : Hinter := ⟨Engine.ofSettings {}, "kept"⟩
    let h : History := ⟨1000, ["items", "children"]⟩
    Text.blank "items:tex" = false ∧ (∀ t ∈ h.entries, ¬ ("items:tex" : Text) <+: t) ∧
      k.engine.candidates "items:tex" bareSession.context =
        [":text".toList, "text".toList] ∧
      (∃! v, Extends k.engine bareSession.context "items:tex" v) ∧
      (k.handleAtEnd bareSession.context h "items:tex").2 = "t" ∧
      (k.handleAtEnd bareSession.context h "items:tex").1.fullHint = "t" := by
  intro k h
  have hblank : Text.blank "items:tex" = false := by decide
  have hnew : ∀ t ∈ h.entries, ¬ ("items:tex" : Text) <+: t := by decide
  have hvalues : (suggestions k.engine bareSession.context "items:tex" 9).map Suggestion.value =
      ["items:text".toList] := by decide +kernel
  have hunique : ∃! v, Extends k.engine bareSession.context "items:tex" v := by
    refine ⟨"items:text", ⟨?_, by decide, by decide⟩, fun v hv => ?_⟩
    · exact hvalues ▸ List.mem_singleton.2 rfl
    · exact List.mem_singleton.1 (hvalues ▸ hv.1)
  obtain ⟨honly, _, hfull⟩ := hint_agrees_with_menu k bareSession h "items:tex" hblank hnew
  have hshown : (k.handleAtEnd bareSession.context h "items:tex").2 = "t" := by
    have hline : "items:tex".toList ++ (k.handleAtEnd bareSession.context h "items:tex").2 =
        "items:text" := List.mem_singleton.1 (hvalues ▸ (honly hunique).1)
    exact List.append_cancel_left (hline.trans (by decide : _ = "items:tex".toList ++ "t".toList))
  exact ⟨hblank, hnew, by decide +kernel, hunique, hshown, hfull.trans hshown⟩

end Hinter

/-! ### A hint accepted token by token -/

namespace History

/-- The entry begins with the line, and no newer entry does. -/
structure NewestStart (h : History) (line entry : Text) : Prop where
  starts : line <+: entry
  newest : ∃ older newer, h.entries = older ++ entry :: newer ∧ ∀ t ∈ newer, ¬ line <+: t

variable {h : History} {line line' entry : Text}

theorem NewestStart.newest? (hx : h.NewestStart line entry) : h.newest? line = some entry := by
  obtain ⟨hstart, older, newer, hentries, hnewer⟩ := hx
  simp [History.newest?, hentries, find?_reverse_eq_none hnewer, hstart]

/-- While the line grows towards the entry, no other one takes its place: what begins with the
longer line begins with the shorter one. -/
theorem NewestStart.grow (hx : h.NewestStart line entry) (hline : line <+: line')
    (hentry : line' <+: entry) : h.NewestStart line' entry := by
  obtain ⟨older, newer, hentries, hnewer⟩ := hx.newest
  exact ⟨hentry, older, newer, hentries, fun t ht hs => hnewer t ht (hline.trans hs)⟩

end History

namespace Hint

variable {h : History} {line rest hint : Text}

theorem fromHistory?_of_newestStart (hx : h.NewestStart line (line ++ rest)) :
    fromHistory? h line = if rest = [] then none else some rest := by
  have hpart : Text.dropStart? line (line ++ rest) = some rest := Text.dropStart?_eq_some_iff.2 rfl
  rw [fromHistory?, hx.newest?, Option.bind_some, hpart]
  cases rest <;> rfl

/-- A hint is cut behind its colons and blanks. -/
def IsCut (ch : Char) : Prop := ch = ':' ∨ isBlank ch = true

instance (ch : Char) : Decidable (IsCut ch) :=
  inferInstanceAs (Decidable (ch = ':' ∨ isBlank ch = true))

/-- The first piece of a hint: it has a colon or a blank at most at its end, and there it has one
unless it is the whole hint. -/
structure IsToken (token hint : Text) : Prop where
  ne_nil : token ≠ []
  begins : token <+: hint
  cut_last : ∀ ch ∈ token.dropLast, ¬ IsCut ch
  ends : token = hint ∨ ∃ last, token.getLast? = some last ∧ IsCut last

theorem firstToken_cons (ch : Char) (hint : Text) :
    firstToken (ch :: hint) = if IsCut ch then [ch] else ch :: firstToken hint := rfl

theorem isToken_firstToken (hne : hint ≠ []) : IsToken (firstToken hint) hint := by
  induction hint with
  | nil => exact absurd rfl hne
  | cons ch hint ih =>
    rw [firstToken_cons]
    split_ifs with hcut
    · exact ⟨by simp, by simp, by simp, Or.inr ⟨ch, rfl, hcut⟩⟩
    · cases hint with
      | nil => exact ⟨by simp, by simp [firstToken], by simp [firstToken], Or.inl rfl⟩
      | cons ch' hint =>
        obtain ⟨htoken, hbegins, hlast, hends⟩ := ih (by simp)
        refine ⟨by simp, List.cons_prefix_cons.2 ⟨rfl, hbegins⟩, ?_, ?_⟩
        · rw [List.dropLast_cons_of_ne_nil htoken]
          exact List.forall_mem_cons.2 ⟨hcut, hlast⟩
        · refine hends.imp (congrArg _) fun ⟨last, hl, hc⟩ => ⟨last, ?_, hc⟩
          rw [← List.singleton_append, List.getLast?_append_of_ne_nil _ htoken, hl]

end Hint

namespace Hinter

open Hint

variable {c : Context} {h : History} {k : Hinter} {line rest : Text}

/-- A hinter and the line it is asked about, after the next token was put behind the line. -/
def acceptToken (c : Context) (h : History) (st : Hinter × Text) : Hinter × Text :=
  let k := (st.1.handleAtEnd c h st.2).1
  (k, st.2 ++ k.nextToken)

def acceptTokens (c : Context) (h : History) : Nat → Hinter × Text → Hinter × Text
  | 0, st => st
  | n + 1, st => acceptTokens c h n (acceptToken c h st)

/-- What is shown and kept at the end of the line is the rest of the entry, and the next token is
its first piece. -/
structure ShowsRest (c : Context) (h : History) (entry : Text) (st : Hinter × Text) : Prop where
  shown : st.2 ++ (st.1.handleAtEnd c h st.2).2 = entry
  kept : (st.1.handleAtEnd c h st.2).1.fullHint = (st.1.handleAtEnd c h st.2).2
  token : IsToken (st.1.handleAtEnd c h st.2).1.nextToken (st.1.handleAtEnd c h st.2).2

theorem handleAtEnd_of_newestStart (k : Hinter) (c : Context) (hline : Text.blank line = false)
    (hx : h.NewestStart line (line ++ rest)) :
    let hint := if rest = [] then (fromCompletion? k.engine c line).getD [] else rest
    k.handleAtEnd c h line = (⟨k.engine, hint⟩, hint) := by
  rw [handleAtEnd_eq k c h hline, fromHistory?_of_newestStart hx]
  split_ifs <;> simp

theorem handleAtEnd_of_ne_nil (k : Hinter) (c : Context) (hline : Text.blank line = false)
    (hx : h.NewestStart line (line ++ rest)) (hne : rest ≠ []) :
    k.handleAtEnd c h line = (⟨k.engine, rest⟩, rest) := by
  rw [handleAtEnd_of_newestStart k c hline hx, if_neg hne]

theorem showsRest_of_newestStart (hline : Text.blank line = false)
    (hx : h.NewestStart line (line ++ rest)) (hne : rest ≠ []) :
    ShowsRest c h (line ++ rest) (k, line) := by
  have hhandle := handleAtEnd_of_ne_nil k c hline hx hne
  refine ⟨?_, ?_, ?_⟩ <;> rw [hhandle]
  · rfl
  · exact isToken_firstToken hne

theorem acceptToken_of_newestStart (hline : Text.blank line = false)
    (hx : h.NewestStart line (line ++ rest)) (hne : rest ≠ []) :
    acceptToken c h (k, line) = (⟨k.engine, rest⟩, line ++ firstToken rest) := by
  rw [acceptToken, handleAtEnd_of_ne_nil k c hline hx hne]
  rfl

/-- A token is taken off the rest, and the entry stays the newest one that begins with the line. -/
theorem newestStart_afterToken (hx : h.NewestStart line (line ++ rest)) (hne : rest ≠ []) :
    ∃ rest', rest'.length < rest.length ∧ line ++ firstToken rest ++ rest' = line ++ rest ∧
      h.NewestStart (line ++ firstToken rest) (line ++ firstToken rest ++ rest') := by
  have htoken := isToken_firstToken hne
  obtain ⟨rest', hrest⟩ := htoken.begins
  have hentry : line ++ firstToken rest ++ rest' = line ++ rest := by
    rw [List.append_assoc, hrest]
  have hshorter : rest'.length < rest.length := by
    have htotal := congrArg List.length hrest
    have hpos := List.length_pos_iff.2 htoken.ne_nil
    rw [List.length_append] at htotal
    omega
  refine ⟨rest', hshorter, hentry, ?_⟩
  rw [hentry]
  exact hx.grow (List.prefix_append _ _) ((List.prefix_append_right_inj line).2 htoken.begins)

theorem exists_acceptTokens (hline : Text.blank line = false)
    (hx : h.NewestStart line (line ++ rest)) :
    ∃ n ≤ rest.length, (∀ m < n, ShowsRest c h (line ++ rest) (acceptTokens c h m (k, line))) ∧
      ∃ hint, acceptTokens c h n (k, line) = (⟨k.engine, hint⟩, line ++ rest) := by
  -- each token takes something off the rest, so the induction is on its length
  induction hlen : rest.length using Nat.strong_induction_on generalizing k line rest with
  | _ size ih =>
    by_cases hne : rest = []
    · refine ⟨0, Nat.zero_le _, by simp, k.current, ?_⟩
      simp [acceptTokens, hne]
    · obtain ⟨rest', hshorter, hentry, hx'⟩ := newestStart_afterToken hx hne
      have hline' := Text.blank_append_eq_false hline (firstToken rest)
      obtain ⟨n, hn, hsteps, hint, hend⟩ :=
        ih rest'.length (hlen ▸ hshorter) (k := ⟨k.engine, rest⟩) hline' hx' rfl
      rw [hentry, ← acceptToken_of_newestStart (c := c) hline hx hne] at hsteps hend
      refine ⟨n + 1, by omega, fun m hm => ?_, hint, hend⟩
      cases m with
      | zero => exact showsRest_of_newestStart hline hx hne
      | succ m => exact hsteps m (Nat.lt_of_succ_lt_succ hm)

/-- A line on the way to an entry of the history.  While tokens are accepted, the rest of that entry
is shown, and after at most as many tokens as characters are missing the line is the entry.  From
then on the history has nothing to add, and the hint is that of the completions. -/
theorem accepted_tokens_reach_entry (k : Hinter) (s : Session) (h : History) (line entry : Text)
    (hline : Text.blank line = false) (hx : h.NewestStart line entry)
    (hlonger : Text.byteSize line < Text.byteSize entry) :
    ∃ n, 0 < n ∧ line.length + n ≤ entry.length ∧
      (∀ m < n, ShowsRest s.context h entry (acceptTokens s.context h m (k, line))) ∧
      (acceptTokens s.context h n (k, line)).2 = entry ∧
      ((acceptTokens s.context h n (k, line)).1.handleAtEnd s.context h entry).2 =
        (fromCompletion? k.engine s.context entry).getD [] := by
  obtain ⟨rest, hne, rfl⟩ := Text.longer_iff.1 ⟨hx.starts, hlonger⟩
  obtain ⟨n, hn, hsteps, hint, hend⟩ := exists_acceptTokens (c := s.context) (k := k) hline hx
  have hwhole : h.NewestStart (line ++ rest) (line ++ rest ++ []) := by
    rw [List.append_nil]
    exact hx.grow (List.prefix_append _ _) (List.prefix_refl _)
  have hblank := Text.blank_append_eq_false hline rest
  refine ⟨n, Nat.pos_of_ne_zero ?_, ?_, hsteps, by rw [hend], ?_⟩
  · rintro rfl
    exact hne (List.self_eq_append_right.1 (congrArg Prod.snd hend))
  · rw [List.length_append]
    omega
  · rw [hend, handleAtEnd_of_newestStart _ s.context hblank hwhole, if_pos rfl]

/-- An entry with three cuts is reached by four tokens.  An older entry begins with the line too and
is never shown. -/
theorem tokens_of_cut_entry :
    let k := Hinter.new (Engine.ofSettings {})
    let h : History := ⟨1000, ["$title:name", "$title:text as int", "items"]⟩
    let after n := (acceptTokens bareSession.context h n (k, "$ti")).2
    Text.blank "$ti" = false ∧ h.NewestStart "$ti" "$title:text as int" ∧
      Text.byteSize "$ti" < Text.byteSize "$title:text as int" ∧
      after 1 = "$title:" ∧ after 2 = "$title:text " ∧ after 3 = "$title:text as " ∧
      ∃ n, (∀ m < n, ShowsRest bareSession.context h "$title:text as int"
          (acceptTokens bareSession.context h m (k, "$ti"))) ∧
        after n = "$title:text as int" := by
  intro k h after
  have hblank : Text.blank "$ti" = false := by decide
  have hx : h.NewestStart "$ti" "$title:text as int" :=
    ⟨by decide, ["$title:name"], ["items"], rfl, by decide⟩
  have hlonger : Text.byteSize "$ti" < Text.byteSize "$title:text as int" := by decide
  obtain ⟨n, _, _, hsteps, hend, _⟩ :=
    accepted_tokens_reach_entry k bareSession h "$ti" "$title:text as int" hblank hx hlonger
  exact ⟨hblank, hx, hlonger, by decide, by decide, by decide, n, hsteps, hend⟩

end Hinter
end ManifestShell
