import ManifestShell.Proofs.Segments
import ManifestShell.Query

/-! Places where a word starts.
The cast keyword of a segment and the import of a line are found in the same way: from left to
right, looking ahead only where no word character stands behind.  Such a search finds the first of
the places that meet its test, or there is none. -/
namespace ManifestShell.Query

variable {p : Text → Prop} {inWord : Bool} {t before rest : Text} {c : Char}

/-- Whether a word character stands behind the place after `before`; `inWord` says it of the place
where `before` starts. -/
def afterWord (inWord : Bool) (before : Text) : Bool := before.getLast?.elim inWord isWordChar

@[simp] theorem afterWord_nil (inWord : Bool) : afterWord inWord [] = inWord := rfl

@[simp] theorem afterWord_cons (inWord : Bool) (c : Char) (before : Text) :
    afterWord inWord (c :: before) = afterWord (isWordChar c) before := by
  rw [afterWord, afterWord, List.getLast?_cons]
  cases before.getLast? <;> rfl

theorem afterWord_eq_false_iff :
    afterWord false t = false ↔ ∀ c, t.getLast? = some c → isWordChar c = false := by
  cases h : t.getLast? <;> simp [afterWord, h]

/-- A cut of `t` with no word character behind it and `p` ahead. -/
structure WordStart (p : Text → Prop) (inWord : Bool) (t before rest : Text) : Prop where
  eq : t = before ++ rest
  behind : afterWord inWord before = false
  ahead : p rest

/-- The leftmost cut of this kind. -/
structure FirstWordStart (p : Text → Prop) (inWord : Bool) (t before rest : Text) : Prop
    extends WordStart p inWord t before rest where
  first : ∀ b r, WordStart p inWord t b r → before.length ≤ b.length

theorem not_wordStart_nil (h : ¬ p []) : ¬ WordStart p inWord [] before rest := by
  intro hcut
  obtain ⟨_, rfl⟩ := List.nil_eq_append_iff.1 hcut.eq
  exact h hcut.ahead

theorem wordStart_cons_iff : WordStart p inWord (c :: t) before rest ↔
    (before = [] ∧ rest = c :: t ∧ inWord = false ∧ p (c :: t)) ∨
      ∃ b, before = c :: b ∧ WordStart p (isWordChar c) t b rest := by
  constructor
  · rintro ⟨heq, hbehind, hahead⟩
    cases before with
    | nil =>
      obtain rfl : c :: t = rest := heq
      exact Or.inl ⟨rfl, rfl, hbehind, hahead⟩
    | cons d b =>
      obtain ⟨rfl, rfl⟩ := List.cons.inj heq
      rw [afterWord_cons] at hbehind
      exact Or.inr ⟨b, rfl, rfl, hbehind, hahead⟩
  · rintro (⟨rfl, rfl, rfl, hp⟩ | ⟨b, rfl, rfl, hbehind, hahead⟩)
    · exact ⟨rfl, rfl, hp⟩
    · exact ⟨rfl, by rwa [afterWord_cons], hahead⟩

theorem firstWordStart_here (hp : p t) :
    FirstWordStart p false t before rest ↔ before = [] ∧ rest = t := by
  have hhere : WordStart p false t [] t := ⟨rfl, rfl, hp⟩
  constructor
  · intro h
    obtain rfl : before = [] := List.length_eq_zero_iff.1 (Nat.le_zero.1 (h.first [] t hhere))
    exact ⟨rfl, h.eq.symm⟩
  · rintro ⟨rfl, rfl⟩
    exact ⟨hhere, fun b r _ => Nat.zero_le _⟩

/-- Where the search does not stop, it goes on behind the next character. -/
theorem firstWordStart_cons_iff (hnot : inWord = false → ¬ p (c :: t)) :
    FirstWordStart p inWord (c :: t) before rest ↔
      ∃ b, before = c :: b ∧ FirstWordStart p (isWordChar c) t b rest := by
  constructor
  · rintro ⟨hcut, hfirst⟩
    rcases wordStart_cons_iff.1 hcut with ⟨_, _, hw, hp⟩ | ⟨b, rfl, hb⟩
    · exact absurd hp (hnot hw)
    · refine ⟨b, rfl, hb, fun b' r' h => ?_⟩
      have hle := hfirst (c :: b') r' (wordStart_cons_iff.2 (Or.inr ⟨b', rfl, h⟩))
      exact Nat.le_of_succ_le_succ hle
  · rintro ⟨b, rfl, hb, hfirst⟩
    refine ⟨wordStart_cons_iff.2 (Or.inr ⟨b, rfl, hb⟩), fun b' r' h => ?_⟩
    rcases wordStart_cons_iff.1 h with ⟨_, _, hw, hp⟩ | ⟨b', rfl, htail⟩
    · exact absurd hp (hnot hw)
    · exact Nat.succ_le_succ (hfirst b' r' htail)

end ManifestShell.Query
