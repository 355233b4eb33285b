import Mathlib.Data.List.Basic
import ManifestShell.Json.Parser
import ManifestShell.Json.Printer
import ManifestShell.Proofs.Segments

/-! Strings and whole numbers of JSON, written and read back.
A reader is run on a written form with any text behind it, and leaves that text.  Behind a string
anything may follow; a number has to end there, since digits, a point or an exponent would go on
with it. -/
namespace ManifestShell.Json

section Strings

variable {c d : Char} (rest : Text)

theorem stringFrom_slash (cs : Text) :
    stringFrom .plain ('\\' :: cs) = stringFrom .escape cs := by
  rw [stringFrom, if_neg (by decide), if_pos rfl]

theorem stringFrom_short (h : shortEscape? d = some c) :
    stringFrom .plain ('\\' :: d :: rest) =
      (stringFrom .plain rest).map fun p => (c :: p.1, p.2) := by
  rw [stringFrom_slash, stringFrom, h]

theorem hexValue?_hexDigit (n : Nat) : hexValue? (hexDigit n) = some (n % 16) := by
  have hall : ∀ k < 16, hexValue? (Nat.digitChar k) = some k := by decide
  exact hall (n % 16) (Nat.mod_lt n (by decide))

theorem stringFrom_unit (h : c.toNat < 32) :
    stringFrom .plain ("\\u00".toList ++ [hexDigit (c.toNat / 16), hexDigit c.toNat] ++ rest) =
      (stringFrom .plain rest).map fun p => (c :: p.1, p.2) := by
  have hvalue :
      16 * (16 * (16 * (16 * 0 + 0) + 0) + c.toNat / 16 % 16) + c.toNat % 16 = c.toNat := by
    omega
  have hhigh : isHighUnit c.toNat = false := by
    simp only [isHighUnit, Bool.and_eq_false_iff, decide_eq_false_iff_not]
    omega
  have hlow : isLowUnit c.toNat = false := by
    simp only [isLowUnit, Bool.and_eq_false_iff, decide_eq_false_iff_not]
    omega
  have hletter : shortEscape? 'u' = none := by decide
  have hzero : hexValue? '0' = some 0 := by decide
  change stringFrom .plain
    ('\\' :: 'u' :: '0' :: '0' :: hexDigit (c.toNat / 16) :: hexDigit c.toNat :: rest) = _
  rw [stringFrom_slash, stringFrom, hletter]
  simp only [stringFrom, hzero, hexValue?_hexDigit, Option.bind_some, if_true, hvalue, hhigh, hlow,
    Bool.false_eq_true, if_false, Char.ofNat_toNat]

theorem stringFrom_escapeChar (c : Char) :
    stringFrom .plain (escapeChar c ++ rest) =
      (stringFrom .plain rest).map fun p => (c :: p.1, p.2) := by
  have hcode {n : Nat} (h : c.toNat = n) : Char.ofNat n = c := h ▸ Char.ofNat_toNat c
  unfold escapeChar
  split_ifs with hquote hslash hfeed hreturn htab hback hform hcontrol
  · exact stringFrom_short rest (hquote ▸ by decide)
  · exact stringFrom_short rest (hslash ▸ by decide)
  · exact stringFrom_short rest (hfeed ▸ by decide)
  · exact stringFrom_short rest (hreturn ▸ by decide)
  · exact stringFrom_short rest (htab ▸ by decide)
  · exact stringFrom_short rest (hcode hback ▸ by decide)
  · exact stringFrom_short rest (hcode hform ▸ by decide)
  · exact stringFrom_unit rest hcontrol
  · rw [List.singleton_append, stringFrom, if_neg hquote, if_neg hslash, if_neg hcontrol]

theorem stringFrom_quoted (t : Text) :
    stringFrom .plain (t.flatMap escapeChar ++ '"' :: rest) = some (t, rest) := by
  induction t with
  | nil => rfl
  | cons c t ih => rw [List.flatMap_cons, List.append_assoc, stringFrom_escapeChar, ih]; rfl

end Strings

section Numbers

variable {n : Nat} {ds rest : Text}

/-- What may stand behind a number: nothing that would go on with it. -/
def EndsNumber (rest : Text) : Prop :=
  ∀ c, rest.head? = some c → isDigit c = false ∧ c ≠ '.' ∧ c ≠ 'e' ∧ c ≠ 'E'

theorem endsNumber_nil : EndsNumber [] := by simp [EndsNumber]

theorem endsNumber_cons {c : Char} (h : isDigit c = false ∧ c ≠ '.' ∧ c ≠ 'e' ∧ c ≠ 'E')
    (rest : Text) : EndsNumber (c :: rest) := by
  intro d hd
  obtain rfl : c = d := by simpa using hd
  exact h

theorem digits_append (hds : ∀ c ∈ ds, isDigit c = true) (hrest : EndsNumber rest) :
    digits (ds ++ rest) = (ds, rest) := by
  have hstop (c : Char) (hc : rest.head? = some c) := (hrest c hc).1
  rw [digits, Text.takeWhile_append_of_stop hds hstop, Text.dropWhile_append_of_stop hds hstop]

theorem fraction?_of_endsNumber (h : EndsNumber rest) : fraction? rest = some (none, rest) := by
  unfold fraction?
  split
  · exact absurd rfl (h '.' rfl).2.1
  · rfl

theorem exponent?_of_endsNumber (h : EndsNumber rest) : exponent? rest = some (none, rest) := by
  cases rest with
  | nil => rfl
  | cons c rest =>
    obtain ⟨_, _, he, hE⟩ := h c rfl
    exact if_neg (by simp [he, hE])

theorem isDigit_of_mem_ofNat {c : Char} (h : c ∈ Text.ofNat n) : isDigit c = true := by
  have hdigit : c.isDigit = true := Nat.isDigit_of_mem_toDigits (by decide) (by decide) h
  simpa [isDigit, Char.isDigit, Char.le_def] using hdigit

theorem natOfDigits_ofNat (n : Nat) : natOfDigits (Text.ofNat n) = n := by
  have hfold := Nat.ofDigitChars_ten_toDigits (n := n)
  rwa [Nat.ofDigitChars_eq_foldl] at hfold

theorem eq_zero_of_head?_ofNat (h : (Text.ofNat n).head? = some '0') : n = 0 := by
  induction n using Nat.strongRecOn with
  | ind n ih =>
    rw [Text.ofNat, Nat.toDigits_eq_if (by decide)] at h
    split_ifs at h with hn
    · exact Nat.digitChar_eq_zero.1 (by simpa using h)
    · rw [List.head?_append_of_ne_nil _ Nat.toDigits_ne_nil] at h
      have hzero := ih (n / 10) (by omega) h
      omega

theorem le_foldl_digits (n : Nat) (ds : Text) :
    n ≤ ds.foldl (fun n c => 10 * n + digitValue c) n := by
  induction ds generalizing n with
  | nil => exact Nat.le_refl n
  | cons c ds ih =>
    have hstep : n ≤ 10 * n + digitValue c := by omega
    exact Nat.le_trans hstep (ih _)

theorem extendSignificand_eq {n : Nat} {ds : Text}
    (h : ds.foldl (fun n c => 10 * n + digitValue c) n < Nat.pow 2 64) :
    extendSignificand n ds = (ds.foldl (fun n c => 10 * n + digitValue c) n, ds.length, 0) := by
  induction ds generalizing n with
  | nil => rfl
  | cons c ds ih =>
    have hle := le_foldl_digits (10 * n + digitValue c) ds
    have hfits : ¬ Nat.pow 2 64 ≤ 10 * n + digitValue c := by
      rw [List.foldl_cons] at h
      omega
    rw [extendSignificand, if_neg hfits, ih h]
    rfl

theorem numberParts_ofNat (n : Nat) (hrest : EndsNumber rest) :
    numberParts (Text.ofNat n ++ rest) = some ((Text.ofNat n, none, none), rest) := by
  have hdigits := digits_append (fun c hc => isDigit_of_mem_ofNat (n := n) hc) hrest
  have hlead : ¬ ((Text.ofNat n).isEmpty = true ∨
      (1 < (Text.ofNat n).length ∧ (Text.ofNat n).head? = some '0')) := by
    rintro (hempty | ⟨hlength, hhead⟩)
    · exact Nat.toDigits_ne_nil (List.isEmpty_iff.1 hempty)
    · rw [eq_zero_of_head?_ofNat hhead] at hlength
      exact absurd hlength (by decide)
  simp only [numberParts, hdigits, if_neg hlead, fraction?_of_endsNumber hrest,
    exponent?_of_endsNumber hrest, Option.bind_eq_bind, Option.bind_some, Option.pure_def]

theorem extendSignificand_ofNat (hn : n < Nat.pow 2 64) :
    extendSignificand 0 (Text.ofNat n) = (n, (Text.ofNat n).length, 0) := by
  have hvalue : (Text.ofNat n).foldl (fun n c => 10 * n + digitValue c) 0 = n := natOfDigits_ofNat n
  rw [extendSignificand_eq (by rwa [hvalue]), hvalue]

theorem number_ofNat (hn : n < Nat.pow 2 64) (hrest : EndsNumber rest) :
    number false (Text.ofNat n ++ rest) = some (int n, rest) := by
  have hvalue : numberValue? false (Text.ofNat n) none none = some (int n) := by
    rw [numberValue?, extendSignificand_ofNat hn]
    rfl
  simp only [number, numberParts_ofNat n hrest, hvalue, Option.bind_eq_bind, Option.bind_some,
    Option.pure_def]

/-- Behind a minus sign a number reaches one further, and zero would not be whole. -/
theorem number_neg_ofNat (hpos : n ≠ 0) (hn : n ≤ Nat.pow 2 63) (hrest : EndsNumber rest) :
    number true (Text.ofNat n ++ rest) = some (int (-n), rest) := by
  have hfits : n < Nat.pow 2 64 := Nat.lt_of_le_of_lt hn (by decide)
  have hvalue : numberValue? true (Text.ofNat n) none none = some (int (-n)) := by
    rw [numberValue?, extendSignificand_ofNat hfits]
    change (if n = 0 then _ else if n ≤ Nat.pow 2 63 then _ else _) = _
    rw [if_neg hpos, if_pos hn]
  simp only [number, numberParts_ofNat n hrest, hvalue, Option.bind_eq_bind, Option.bind_some,
    Option.pure_def]

end Numbers

end ManifestShell.Json
