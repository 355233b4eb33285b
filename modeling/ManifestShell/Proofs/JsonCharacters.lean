import ManifestShell.Proofs.PrintedResults

/-! Which characters stand in JSON.
Control characters within texts are escaped, and neither numbers nor the signs between values hold
one.  So the compact form has no control character at all, whatever the value is, and the indented
form has none but the line feeds that begin its lines. -/
namespace ManifestShell.Json

/-! ### The parts of a value -/

def isScalar : Json → Bool
  | arr _ | obj _ => false
  | _ => true

theorem compact_of_isScalar {v : Json} (h : v.isScalar = true) : compact v = scalarText v := by
  cases v with
  | arr | obj => cases h
  | null | bool | int | float | str => rfl

theorem prettyAt_of_isScalar {v : Json} (h : v.isScalar = true) (level : Nat) :
    prettyAt level v = scalarText v := by
  cases v with
  | arr | obj => cases h
  | null | bool | int | float | str => rfl

/-- Induction on the parts of a value. -/
@[elab_as_elim]
theorem partsInduction {motive : Json → Prop} (scalar : ∀ v, v.isScalar = true → motive v)
    (arr : ∀ items, (∀ v ∈ items, motive v) → motive (.arr items))
    (obj : ∀ members, (∀ m ∈ members, motive m.2) → motive (.obj members)) (v : Json) :
    motive v := by
  induction hn : sizeOf v using Nat.strongRecOn generalizing v with
  | ind n ih =>
    cases v with
    | arr items =>
      refine arr items fun v hv => ih _ ?_ v rfl
      have hlt := List.sizeOf_lt_of_mem hv
      simp only [Json.arr.sizeOf_spec] at hn
      omega
    | obj members =>
      refine obj members fun m hm => ih _ ?_ m.2 rfl
      have hlt := List.sizeOf_lt_of_mem hm
      obtain ⟨name, v⟩ := m
      simp only [Json.obj.sizeOf_spec, Prod.mk.sizeOf_spec] at hn hlt ⊢
      omega
    | null | bool | int | float | str => exact scalar _ rfl

theorem isDigit_of_mem_shortest {y : Binary64} {c : Char} (h : c ∈ y.shortest.digits) :
    isDigit c = true := by
  unfold Binary64.shortest at h
  dsimp only at h
  generalize List.findSome? _ _ = found at h
  cases found with
  | none =>
    obtain rfl : c = '0' := by simpa using h
    decide
  | some q =>
    -- the digits that are kept are among those that were found
    have hfound := (List.dropWhile_suffix _).subset (List.mem_reverse.1 h)
    exact isDigit_of_mem_ofNat (List.mem_reverse.1 hfound)

/-! ### No control characters -/

section Control

variable {x : Char} (hx : x.toNat < 32)

include hx

theorem ne_of_control {c : Char} (hc : 32 ≤ c.toNat) : x ≠ c := by
  rintro rfl
  omega

theorem ne_of_isDigit {c : Char} (hc : isDigit c = true) : x ≠ c := by
  have hbounds : '0' ≤ c ∧ c ≤ '9' := by simpa [isDigit] using hc
  have hlow : 48 ≤ c.toNat := hbounds.1
  exact ne_of_control hx (by omega)

theorem notMem_of_shown {t : Text} (ht : t.all fun c => 32 ≤ c.toNat) : x ∉ t := fun hmem =>
  ne_of_control hx (by simpa using List.all_eq_true.1 ht x hmem) rfl

theorem notMem_ofNat (n : Nat) : x ∉ Text.ofNat n := fun hmem =>
  ne_of_isDigit hx (isDigit_of_mem_ofNat hmem) rfl

theorem notMem_intText (i : Int) : x ∉ FloatLayout.intText i := by
  have hminus : x ≠ '-' := ne_of_control hx (by decide)
  have hdigits := notMem_ofNat hx i.natAbs
  unfold FloatLayout.intText
  split_ifs
  · simp [hdigits, hminus]
  · exact hdigits

theorem notMem_positional {d : Decimal} (h : x ∉ d.digits) : x ∉ FloatLayout.positional d := by
  have hzero : x ≠ '0' := ne_of_control hx (by decide)
  have hpoint : x ≠ '.' := ne_of_control hx (by decide)
  have hdigits (n : Nat) : x ∉ d.digits ++ List.replicate n '0' := by simp [h, hzero]
  unfold FloatLayout.positional
  split_ifs
  · simp [h, hzero, hpoint]
  · intro hmem
    rcases List.mem_append.1 hmem with hwhole | hrest
    · exact hdigits _ (List.mem_of_mem_take hwhole)
    · rcases List.mem_cons.1 hrest with hmem | hfraction
      · exact hpoint hmem
      · split_ifs at hfraction
        · exact hzero (by simpa using hfraction)
        · exact hdigits _ (List.mem_of_mem_drop hfraction)

theorem notMem_scientific {d : Decimal} (h : x ∉ d.digits) : x ∉ FloatLayout.scientific d := by
  have hzero : x ≠ '0' := ne_of_control hx (by decide)
  have hpoint : x ≠ '.' := ne_of_control hx (by decide)
  have hletter : x ≠ 'e' := ne_of_control hx (by decide)
  have hplus : x ≠ '+' := ne_of_control hx (by decide)
  obtain ⟨digits, exponent⟩ := d
  unfold FloatLayout.scientific
  rw [List.mem_append, not_or, List.mem_cons, not_or]
  refine ⟨?_, hletter, ?_⟩
  · rcases digits with _ | ⟨a, _ | ⟨b, bs⟩⟩
    · simpa using hzero
    · exact h
    · simpa [hpoint] using h
  · split_ifs <;> simp [notMem_intText hx, hplus]

theorem notMem_render (layout : FloatLayout) (y : Binary64) : x ∉ layout.render y := by
  have hminus : x ≠ '-' := ne_of_control hx (by decide)
  have hzero : x ∉ "0.0".toList := notMem_of_shown hx (by decide)
  have hdigits : x ∉ y.shortest.digits := fun hmem =>
    ne_of_isDigit hx (isDigit_of_mem_shortest hmem) rfl
  have hpositional := notMem_positional hx hdigits
  have hscientific := notMem_scientific hx hdigits
  unfold FloatLayout.render
  dsimp only
  split_ifs <;> simp only [List.mem_cons, not_or, not_false_eq_true, and_self, *]

theorem notMem_escapeChar (c : Char) : x ∉ escapeChar c := by
  have hhex (n : Nat) : x ≠ hexDigit n := by
    have hall : ∀ k < 16, 32 ≤ (Nat.digitChar k).toNat := by decide
    exact ne_of_control hx (hall (n % 16) (Nat.mod_lt n (by decide)))
  have hlead : x ∉ "\\u00".toList := notMem_of_shown hx (by decide)
  unfold escapeChar
  split_ifs with _ _ _ _ _ _ _ hcontrol
  rotate_left 7
  · exact List.not_mem_append hlead (by simp [hhex])
  · simpa using ne_of_control hx (Nat.le_of_not_lt hcontrol)
  all_goals exact notMem_of_shown hx (by decide)

theorem notMem_quote (t : Text) : x ∉ quote t := by
  have hquote : x ≠ '"' := ne_of_control hx (by decide)
  simp [quote, notMem_escapeChar hx, hquote]

theorem notMem_scalarText (v : Json) : x ∉ scalarText v := by
  cases v with
  | bool b => cases b <;> exact notMem_of_shown hx (by decide)
  | int i => exact notMem_intText hx i
  | float y => exact notMem_render hx floatLayout y
  | str t => exact notMem_quote hx t
  | null => exact notMem_of_shown hx (by decide)
  | arr _ => exact notMem_of_shown hx (by rfl)
  | obj _ => exact notMem_of_shown hx (by rfl)

theorem notMem_intercalate {ts : List Text} (h : ∀ t ∈ ts, x ∉ t) : x ∉ [','].intercalate ts := by
  have hcomma : x ≠ ',' := ne_of_control hx (by decide)
  induction ts with
  | nil => simp
  | cons t ts ih =>
    obtain ⟨ht, hts⟩ := List.forall_mem_cons.1 h
    cases ts with
    | nil => simpa using ht
    | cons u us => simp [List.intercalate_cons_cons, ht, ih hts, hcomma]

theorem notMem_compact (v : Json) : x ∉ compact v := by
  have hsign {c : Char} (hc : 32 ≤ c.toNat) : x ≠ c := ne_of_control hx hc
  induction v using partsInduction with
  | scalar v hv =>
    rw [compact_of_isScalar hv]
    exact notMem_scalarText hx v
  | arr items ih =>
    have hitems := notMem_intercalate hx (List.forall_mem_map.2 ih)
    simp [compact, compactItems_eq, hitems, hsign]
  | obj members ih =>
    have hmember : ∀ m ∈ members, x ∉ compactMember m := fun m hm => by
      simp [compactMember, notMem_quote hx, ih m hm, hsign]
    have hmembers := notMem_intercalate hx (List.forall_mem_map.2 hmember)
    simp [compact, compactMembers_eq, hmembers, hsign]

theorem notMem_newline (hfeed : x ≠ '\n') (level : Nat) : x ∉ newline level := by
  have hblank : x ≠ ' ' := ne_of_control hx (by decide)
  simp [newline, hfeed, hblank]

/-- Of the control characters only the line feed stands in the indented form. -/
theorem notMem_prettyAt (hfeed : x ≠ '\n') (v : Json) (level : Nat) : x ∉ prettyAt level v := by
  have hsign {c : Char} (hc : 32 ≤ c.toNat) : x ≠ c := ne_of_control hx hc
  have hline := notMem_newline hx hfeed
  have hlast (level count : Nat) : x ∉ lastLine level count := by
    unfold lastLine
    split_ifs
    · simp
    · exact hline level
  induction v using partsInduction generalizing level with
  | scalar v hv =>
    rw [prettyAt_of_isScalar hv]
    exact notMem_scalarText hx v
  | arr items ih =>
    have hitem : ∀ v ∈ items, x ∉ prettyItem (level + 1) v := fun v hv => by
      simp [prettyItem, hline, ih v hv]
    have hitems := notMem_intercalate hx (List.forall_mem_map.2 hitem)
    simp [prettyAt_arr, hitems, hsign, hlast]
  | obj members ih =>
    have hmember : ∀ m ∈ members, x ∉ prettyMember (level + 1) m := fun m hm => by
      simp [prettyMember, hline, notMem_quote hx, ih m hm, hsign]
    have hmembers := notMem_intercalate hx (List.forall_mem_map.2 hmember)
    simp [prettyAt_obj, hmembers, hsign, hlast]

end Control

end ManifestShell.Json
