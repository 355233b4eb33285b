/-! Texts as lists of characters.
Every line, name, path and candidate of the shell is a `Text`.  Offsets that leave the library count
the bytes of the UTF-8 encoding, which here is a measure on characters; texts are ordered by code
point, which is also the order of their encodings. -/
namespace ManifestShell

abbrev Text := List Char

instance : Coe String Text := ⟨String.toList⟩

namespace Text

def byteSize : Text → Nat
  | [] => 0
  | c :: cs => c.utf8Size + byteSize cs

@[simp] theorem byteSize_append (s t : Text) : byteSize (s ++ t) = byteSize s + byteSize t := by
  induction s with
  | nil => simp [byteSize]
  | cons c s ih => simp [byteSize, ih, Nat.add_assoc]

/-- The part before the byte offset `n` and the part from it on, if `n` falls between two
characters. -/
def cutAtByte? : Nat → Text → Option (Text × Text)
  | 0, t => some ([], t)
  | _ + 1, [] => none
  | n + 1, c :: cs =>
    if c.utf8Size ≤ n + 1 then
      (cutAtByte? (n + 1 - c.utf8Size) cs).map fun p => (c :: p.1, p.2)
    else none

theorem cutAtByte?_byteSize (s t : Text) : cutAtByte? (byteSize s) (s ++ t) = some (s, t) := by
  induction s with
  | nil => cases t <;> rfl
  | cons c s ih =>
    have hc : 0 < c.utf8Size := Char.utf8Size_pos c
    obtain ⟨n, hn⟩ : ∃ n, byteSize (c :: s) = n + 1 := ⟨c.utf8Size + byteSize s - 1, by
      simp only [byteSize]; omega⟩
    have hs : n + 1 - c.utf8Size = byteSize s := by simp only [byteSize] at hn; omega
    have hle : c.utf8Size ≤ n + 1 := by simp only [byteSize] at hn; omega
    rw [hn, List.cons_append, cutAtByte?, if_pos hle, hs, ih]
    rfl

/-- The pieces between the occurrences of `sep`; there is always at least one. -/
def splitOn (sep : Char) : Text → List Text
  | [] => [[]]
  | c :: cs =>
    if c = sep then [] :: splitOn sep cs
    else match splitOn sep cs with
      | [] => [[c]]
      | p :: ps => (c :: p) :: ps

theorem splitOn_ne_nil (sep : Char) (t : Text) : splitOn sep t ≠ [] := by
  cases t with
  | nil => simp [splitOn]
  | cons c cs =>
    unfold splitOn
    split
    · simp
    · split <;> simp

/-- The parts around the first character that satisfies `p`, which itself is dropped. -/
def splitFirst? (p : Char → Bool) : Text → Option (Text × Text)
  | [] => none
  | c :: cs => if p c then some ([], cs) else (splitFirst? p cs).map fun q => (c :: q.1, q.2)

/-- The parts around the last occurrence of `sep`, which itself is dropped. -/
def splitLast? (sep : Char) : Text → Option (Text × Text)
  | [] => none
  | c :: cs =>
    match splitLast? sep cs with
    | some q => some (c :: q.1, q.2)
    | none => if c = sep then some ([], cs) else none

def tails : Text → List Text
  | [] => [[]]
  | c :: cs => (c :: cs) :: tails cs

def hasPart (needle t : Text) : Bool := (tails t).any fun r => needle.isPrefixOf r

def startsWith (start t : Text) : Bool := start.isPrefixOf t

def dropStart? (start t : Text) : Option Text := start.isPrefixOf? t

def endsWithChar (p : Char → Bool) (t : Text) : Bool :=
  match t.getLast? with
  | some c => p c
  | none => false

def ofNat (n : Nat) : Text := Nat.toDigits 10 n

def joinLines (ls : List Text) : Text := ['\n'].intercalate ls

/-- Upper case ASCII letters become lower case; all other characters stay. -/
def asciiLower (t : Text) : Text := t.map Char.toLower

end Text

/-! ### White space -/

/-- The characters with the property `White_Space`. -/
def isBlank (c : Char) : Bool :=
  let n := c.toNat
  (0x9 ≤ n && n ≤ 0xD) || n == 0x20 || n == 0x85 || n == 0xA0 || n == 0x1680 ||
    (0x2000 ≤ n && n ≤ 0x200A) || n == 0x2028 || n == 0x2029 || n == 0x202F || n == 0x205F ||
    n == 0x3000

namespace Text

def trimStart (t : Text) : Text := t.dropWhile isBlank

def trimEnd (t : Text) : Text := (t.reverse.dropWhile isBlank).reverse

def trim (t : Text) : Text := trimEnd (trimStart t)

def blank (t : Text) : Bool := t.all isBlank

/-- The maximal runs of characters that are not blank. -/
def words (t : Text) : List Text := go [] t
where
  /-- Collects the current run in reverse. -/
  go (run : Text) : Text → List Text
    | [] => if run.isEmpty then [] else [run.reverse]
    | c :: cs =>
      if isBlank c then
        if run.isEmpty then go [] cs else run.reverse :: go [] cs
      else go (c :: run) cs

@[simp] theorem trimStart_nil : trimStart [] = [] := rfl

@[simp] theorem trimEnd_nil : trimEnd [] = [] := rfl

end Text

/-! ### Ascending lists -/

namespace Text

/-- Puts `t` at its place in an ascending list, unless it is there already. -/
def insertDistinct (t : Text) : List Text → List Text
  | [] => [t]
  | u :: us => if t < u then t :: u :: us else if u < t then u :: insertDistinct t us else u :: us

def ascending (ts : List Text) : List Text := ts.foldr insertDistinct []

theorem eq_of_not_lt {s t : Text} (h : ¬ s < t) (h' : ¬ t < s) : s = t :=
  List.le_antisymm (List.not_lt.1 h') (List.not_lt.1 h)

theorem mem_insertDistinct {s t : Text} {us : List Text} :
    s ∈ insertDistinct t us ↔ s = t ∨ s ∈ us := by
  induction us with
  | nil => simp [insertDistinct]
  | cons u us ih =>
    unfold insertDistinct
    split
    · simp
    · split
      · simp [ih, or_left_comm]
      · rename_i h h'
        simp [eq_of_not_lt h h']

theorem mem_ascending {s : Text} {ts : List Text} : s ∈ ascending ts ↔ s ∈ ts := by
  induction ts with
  | nil => simp [ascending]
  | cons t ts ih =>
    have h : ascending (t :: ts) = insertDistinct t (ascending ts) := rfl
    rw [h, mem_insertDistinct, ih, List.mem_cons]

theorem pairwise_insertDistinct {t : Text} {us : List Text} (h : us.Pairwise (· < ·)) :
    (insertDistinct t us).Pairwise (· < ·) := by
  induction us with
  | nil => simp [insertDistinct]
  | cons u us ih =>
    obtain ⟨hu, hus⟩ := List.pairwise_cons.1 h
    unfold insertDistinct
    split
    · rename_i htu
      refine List.pairwise_cons.2 ⟨fun s hs => ?_, h⟩
      rcases List.mem_cons.1 hs with rfl | hs
      · exact htu
      · exact List.lt_trans htu (hu s hs)
    · split
      · rename_i hut
        refine List.pairwise_cons.2 ⟨fun s hs => ?_, ih hus⟩
        rcases mem_insertDistinct.1 hs with rfl | hs
        · exact hut
        · exact hu s hs
      · exact h

theorem pairwise_ascending (ts : List Text) : (ascending ts).Pairwise (· < ·) := by
  induction ts with
  | nil => exact List.Pairwise.nil
  | cons t ts ih => exact pairwise_insertDistinct ih

end Text

end ManifestShell
