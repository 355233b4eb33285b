import ManifestShell.Proofs.Tables
import ManifestShell.Proofs.TomlTexts
import ManifestShell.Toml.Parser

/-! Documents in TOML, written section by section and read back.
Each line of a document is a step of its draft: an empty line changes nothing, a header opens a
table, and a key with a value goes into the table that was opened last.  A document of sections with
different names, whose keys differ within each of them, is read as the table of these sections. -/
namespace ManifestShell.Toml

variable {t rest : Text} {c : Char} {k : Text} {v : Toml} {n : Nat}

/-! ### Values -/

/-- A value is written as a text that is read back at the end of a line. -/
structure Spells (t : Text) (v : Toml) : Prop where
  start : ∀ c, t.head? = some c → isBlank c = false
  read (rest : Text) : value maxDepth (t ++ '\n' :: rest) = some (v, '\n' :: rest)

theorem value_eq_scalar (h : isUnquotedChar c = true ∨ c = '"' ∨ c = '\'') (n : Nat) (t : Text) :
    value n (c :: t) = scalar (c :: t) := by
  cases n with
  | zero => rfl
  | succ n =>
    unfold value
    split
    · rename_i heq
      cases heq
      exact absurd h (by decide)
    · rename_i heq
      cases heq
      exact absurd h (by decide)
    · rfl

theorem spells_word (hne : t ≠ []) (hall : t.all isUnquotedChar = true)
    (hv : unquoted? t = some v) : Spells t v := by
  have ht := List.all_eq_true.1 hall
  obtain ⟨c, cs, rfl⟩ := List.exists_cons_of_ne_nil hne
  have hc := ht c List.mem_cons_self
  refine ⟨fun d hd => ?_, fun rest => ?_⟩
  · obtain rfl : c = d := by simpa using hd
    simp only [isUnquotedChar, Bool.not_eq_true', Bool.or_eq_false_iff] at hc
    simp [hc]
  · have hstop (d : Char) (hd : ('\n' :: rest).head? = some d) : isUnquotedChar d = false := by
      obtain rfl : '\n' = d := by simpa using hd
      decide
    have htime : timeFollows (c :: cs) ('\n' :: rest) = false := Bool.and_false _
    rw [List.cons_append, value_eq_scalar (.inl hc), ← List.cons_append]
    unfold scalar
    split
    · rename_i heq
      cases heq
      exact absurd hc (by decide)
    · rename_i heq
      cases heq
      exact absurd hc (by decide)
    · simp only [Text.takeWhile_append_of_stop ht hstop, Text.dropWhile_append_of_stop ht hstop,
        htime, hv]
      rfl

theorem spells_flag (b : Bool) : Spells (if b then "true".toList else "false".toList) (bool b) := by
  cases b with
  | false => exact spells_word (by decide) (by decide) rfl
  | true => exact spells_word (by decide) (by decide) rfl

theorem exists_writeText (t : Text) : ∃ c cs, writeText t = c :: cs ∧ (c = '"' ∨ c = '\'') := by
  unfold writeText
  dsimp only
  split_ifs
  all_goals exact ⟨_, _, rfl, by decide⟩

theorem spells_writeText (t : Text) : Spells (writeText t) (str t) := by
  obtain ⟨c, cs, hwrite, hc⟩ := exists_writeText t
  refine ⟨fun d hd => ?_, fun rest => ?_⟩
  · rw [hwrite] at hd
    obtain rfl : c = d := by simpa using hd
    rcases hc with rfl | rfl <;> decide
  · have hquoted : quoted (writeText t ++ '\n' :: rest) = some (t, '\n' :: rest) :=
      quoted_writeText t nofun nofun
    rw [hwrite, List.cons_append] at hquoted ⊢
    rw [value_eq_scalar (.inr hc)]
    rcases hc with rfl | rfl
    · rw [scalar, hquoted]
      rfl
    · rw [scalar, hquoted]
      rfl

theorem hexValue?_of_isDigit (h : Json.isDigit c = true) :
    Json.hexValue? c = some (Json.digitValue c) := by
  have hrange : '0' ≤ c ∧ c ≤ '9' := by simpa [Json.isDigit] using h
  rw [Json.hexValue?, if_pos hrange]
  rfl

theorem isDigitBelow_of_isDigit (h : Json.isDigit c = true) : isDigitBelow 10 c = true := by
  have hrange : '0' ≤ c ∧ c ≤ '9' := by simpa [Json.isDigit] using h
  have hle : c.toNat ≤ 57 := Char.le_def.1 hrange.2
  rw [isDigitBelow, hexValue?_of_isDigit h]
  simp only [Option.any_some, decide_eq_true_eq, Json.digitValue, Char.reduceToNat]
  omega

theorem ungroup?_eq_self {isDigit : Char → Bool} (hline : isDigit '_' = false) (hne : t ≠ [])
    (h : ∀ c ∈ t, isDigit c = true) : ungroup? isDigit t = some t := by
  induction t with
  | nil => exact absurd rfl hne
  | cons c t ih =>
    obtain ⟨hc, ht⟩ := List.forall_mem_cons.1 h
    cases t with
    | nil => exact if_pos hc
    | cons d t =>
      have hd : d ≠ '_' := by
        rintro rfl
        rw [ht '_' List.mem_cons_self] at hline
        cases hline
      have hother (cs : Text) (h : d :: t = '_' :: cs) : False := hd (List.cons.inj h).1
      rw [ungroup?.eq_4 _ _ (d :: t) nofun hother, if_pos hc, ih nofun ht]
      rfl

theorem natOfDigits_eq (h : ∀ c ∈ t, Json.isDigit c = true) :
    natOfDigits 10 t = Json.natOfDigits t := by
  refine List.foldl_ext _ _ 0 fun n c hc => ?_
  rw [hexValue?_of_isDigit (h c hc), Option.getD_some]

theorem decimalDigits?_ofNat (n : Nat) : decimalDigits? (Text.ofNat n) = some (Text.ofNat n) := by
  have hdigits (c : Char) (hc : c ∈ Text.ofNat n) : isDigitBelow 10 c = true :=
    isDigitBelow_of_isDigit (Json.isDigit_of_mem_ofNat hc)
  have hself : ungroup? (isDigitBelow 10) (Text.ofNat n) = some (Text.ofNat n) :=
    ungroup?_eq_self (by decide) Nat.toDigits_ne_nil hdigits
  have hzero : (decide ((Text.ofNat n).length ≤ 1) || (Text.ofNat n).head? != some '0') = true := by
    by_cases hhead : (Text.ofNat n).head? = some '0'
    · rw [Json.eq_zero_of_head?_ofNat hhead]
      rfl
    · simp [hhead]
  rw [decimalDigits?, hself, Option.filter_some, if_pos hzero]

theorem integer?_ofNat (n : Nat) : integer? (Text.ofNat n) = some (n : Int) := by
  have hmem {c : Char} (hc : c ∈ Text.ofNat n) : Json.isDigit c = true :=
    Json.isDigit_of_mem_ofNat hc
  have hvalue : natOfDigits 10 (Text.ofNat n) = n :=
    (natOfDigits_eq fun c => hmem).trans (Json.natOfDigits_ofNat n)
  have hsigned : signed (Text.ofNat n) = (false, Text.ofNat n) := by
    unfold signed
    split
    · rename_i cs heq
      exact absurd (hmem (heq ▸ List.mem_cons_self : '-' ∈ Text.ofNat n)) (by decide)
    · rename_i cs heq
      exact absurd (hmem (heq ▸ List.mem_cons_self : '+' ∈ Text.ofNat n)) (by decide)
    · rfl
  have hbase {b : Char} {cs : Text} (h : Text.ofNat n = '0' :: b :: cs) : Json.isDigit b = true :=
    hmem (by simp [h])
  unfold integer?
  split
  · rename_i cs heq
    exact absurd (hbase heq) (by decide)
  · rename_i cs heq
    exact absurd (hbase heq) (by decide)
  · rename_i cs heq
    exact absurd (hbase heq) (by decide)
  · rw [hsigned, decimalDigits?_ofNat, Option.map_some, hvalue]
    rfl

theorem isUnquotedChar_of_isDigit (h : Json.isDigit c = true) : isUnquotedChar c = true := by
  by_contra hbad
  simp only [isUnquotedChar, isBlank, Bool.not_eq_true, Bool.not_eq_false', Bool.or_eq_true,
    beq_iff_eq, or_assoc] at hbad
  rcases hbad with rfl | rfl | rfl | rfl | rfl | rfl | rfl | rfl | rfl | rfl | rfl | rfl | rfl
  all_goals cases h

theorem spells_ofNat (n : Nat) : Spells (Text.ofNat n) (int n) := by
  have hmem {c : Char} (hc : c ∈ Text.ofNat n) : Json.isDigit c = true :=
    Json.isDigit_of_mem_ofNat hc
  have htrue : Text.ofNat n ≠ "true".toList := fun h =>
    absurd (hmem (by rw [h]; decide : 't' ∈ Text.ofNat n)) (by decide)
  have hfalse : Text.ofNat n ≠ "false".toList := fun h =>
    absurd (hmem (by rw [h]; decide : 'f' ∈ Text.ofNat n)) (by decide)
  have hall : (Text.ofNat n).all isUnquotedChar = true :=
    List.all_eq_true.2 fun c hc => isUnquotedChar_of_isDigit (hmem hc)
  refine spells_word Nat.toDigits_ne_nil hall ?_
  rw [unquoted?, if_neg htrue, if_neg hfalse, integer?_ofNat]

theorem Spells.skipBlank_append (h : Spells t v) (rest : Text) :
    skipBlank (t ++ '\n' :: rest) = t ++ '\n' :: rest := by
  cases t with
  | nil => rfl
  | cons c t => simp [skipBlank, h.start c rfl]

/-! ### Keys and lines -/

structure IsBareKey (k : Text) : Prop where
  ne_nil : k ≠ []
  chars : ∀ c ∈ k, isBareKeyChar c = true

instance : Decidable (IsBareKey k) :=
  decidable_of_iff (k ≠ [] ∧ k.all isBareKeyChar = true)
    ⟨fun h => ⟨h.1, List.all_eq_true.1 h.2⟩, fun h => ⟨h.ne_nil, List.all_eq_true.2 h.chars⟩⟩

theorem ne_of_isBareKeyChar {x : Char} (h : isBareKeyChar c = true) (hx : isBareKeyChar x = false) :
    c ≠ x := by
  rintro rfl
  rw [h] at hx
  cases hx

theorem isBlank_of_isBareKeyChar (h : isBareKeyChar c = true) : isBlank c = false := by
  simp [isBlank, ne_of_isBareKeyChar h (by decide : isBareKeyChar ' ' = false),
    ne_of_isBareKeyChar h (by decide : isBareKeyChar '\t' = false)]

namespace IsBareKey

theorem exists_cons (hk : IsBareKey k) : ∃ c cs, k = c :: cs ∧ isBareKeyChar c = true := by
  obtain ⟨c, cs, rfl⟩ := List.exists_cons_of_ne_nil hk.ne_nil
  exact ⟨c, cs, rfl, hk.chars c List.mem_cons_self⟩

theorem keyPart_append (hk : IsBareKey k)
    (hrest : ∀ c, rest.head? = some c → isBareKeyChar c = false) :
    keyPart (k ++ rest) = some (k, rest) := by
  obtain ⟨c, cs, hcs, hc⟩ := hk.exists_cons
  have hne : k.isEmpty = false := by rw [hcs]; rfl
  unfold keyPart
  split
  · rename_i heq
    rw [hcs] at heq
    cases heq
    cases hc
  · rename_i heq
    rw [hcs] at heq
    cases heq
    cases hc
  · simp only [Text.takeWhile_append_of_stop hk.chars hrest,
      Text.dropWhile_append_of_stop hk.chars hrest, hne]
    rfl

theorem skipBlank_append (hk : IsBareKey k) (rest : Text) : skipBlank (k ++ rest) = k ++ rest := by
  obtain ⟨c, cs, rfl, hc⟩ := hk.exists_cons
  simp [skipBlank, isBlank_of_isBareKeyChar hc]

theorem key_append (hk : IsBareKey k) (hrest : ∀ c, rest.head? = some c → isBareKeyChar c = false)
    (hdot : (skipBlank rest).head? ≠ some '.') :
    key (k ++ rest) = some (([], k), skipBlank rest) := by
  obtain ⟨n, hn⟩ : ∃ n, (k ++ rest).length = n + 1 := by
    obtain ⟨c, cs, rfl, _⟩ := hk.exists_cons
    exact ⟨_, rfl⟩
  rw [key, hn, keyParts, hk.skipBlank_append, hk.keyPart_append hrest]
  simp only [Option.bind_eq_bind, Option.bind_some]
  split
  · rename_i heq
    exact absurd (by rw [heq]; rfl) hdot
  · rfl

end IsBareKey

inductive ReadsLine : Draft → Text → Draft → Prop where
  | empty (d : Draft) : ReadsLine d [] d
  | header {d d' : Draft} {k : Text} (hk : IsBareKey k)
      (h : d.startSection ⟨[], k, false⟩ = some d') : ReadsLine d ('[' :: (k ++ [']'])) d'
  | entry {d d' : Draft} {k t : Text} {v : Toml} (hk : IsBareKey k) (hv : Spells t v)
      (h : d.add [] k v = some d') : ReadsLine d (k ++ " = ".toList ++ t) d'

inductive Reads : Draft → List Text → Draft → Prop where
  | nil (d : Draft) : Reads d [] d
  | cons {d d' d'' : Draft} {line : Text} {lines : List Text} (hline : ReadsLine d line d')
      (hlines : Reads d' lines d'') : Reads d (line :: lines) d''

section Lines

variable {d d' d'' : Draft} {lines more : List Text}

theorem Reads.append (h : Reads d lines d') (hmore : Reads d' more d'') :
    Reads d (lines ++ more) d'' := by
  induction h with
  | nil => exact hmore
  | cons hline _ ih => exact .cons hline (ih hmore)

theorem expression_header (hk : IsBareKey k) (h : d.startSection ⟨[], k, false⟩ = some d')
    (rest : Text) : expression d ('[' :: (k ++ ']' :: rest)) = some (d', rest) := by
  have hstop (c : Char) (hc : (']' :: rest).head? = some c) : isBareKeyChar c = false := by
    obtain rfl : ']' = c := by simpa using hc
    decide
  have hheader : headerFrom false (k ++ ']' :: rest) = some (⟨[], k, false⟩, rest) := by
    have hkey : key (k ++ ']' :: rest) = some (([], k), ']' :: rest) :=
      hk.key_append hstop nofun
    rw [headerFrom, hkey]
    rfl
  obtain ⟨c, cs, rfl, hc⟩ := hk.exists_cons
  unfold expression
  split
  · rename_i heq
    cases heq
    cases hc
  · rename_i heq
    cases heq
    rw [hheader]
    simp only [Option.bind_eq_bind, Option.bind_some, h]
    rfl
  · rename_i hother
    exact (hother _ rfl).elim

theorem assignment_entry (hk : IsBareKey k) (hv : Spells t v) (rest : Text) :
    assignment (value maxDepth) (k ++ " = ".toList ++ t ++ '\n' :: rest) =
      some ((([], k), v), '\n' :: rest) := by
  have hstop (c : Char) (hc : (' ' :: '=' :: ' ' :: (t ++ '\n' :: rest)).head? = some c) :
      isBareKeyChar c = false := by
    obtain rfl : ' ' = c := by simpa using hc
    decide
  have hkey : key (k ++ ' ' :: '=' :: ' ' :: (t ++ '\n' :: rest)) =
      some (([], k), '=' :: ' ' :: (t ++ '\n' :: rest)) := hk.key_append hstop nofun
  have hskip : skipBlank (' ' :: (t ++ '\n' :: rest)) = t ++ '\n' :: rest :=
    hv.skipBlank_append rest
  rw [List.append_assoc, List.append_assoc, assignment]
  change (key (k ++ ' ' :: '=' :: ' ' :: (t ++ '\n' :: rest))).bind _ = _
  rw [hkey]
  simp only [Option.bind_some, hskip, hv.read, Option.bind_eq_bind]
  rfl

theorem expression_entry (hk : IsBareKey k) (hv : Spells t v) (h : d.add [] k v = some d')
    (rest : Text) :
    expression d (k ++ " = ".toList ++ t ++ '\n' :: rest) = some (d', '\n' :: rest) := by
  have hassign := assignment_entry hk hv rest
  obtain ⟨c, cs, rfl, hc⟩ := hk.exists_cons
  have hbracket : c ≠ '[' := ne_of_isBareKeyChar hc (by decide)
  unfold expression
  split
  · rename_i heq
    exact absurd (List.cons.inj heq).1 hbracket
  · rename_i heq
    exact absurd (List.cons.inj heq).1 hbracket
  · rw [hassign]
    simp only [Option.bind_eq_bind, Option.bind_some, h]
    rfl

theorem skipLines_start (hc : isBareKeyChar c = true ∨ c = '[') (t : Text) :
    skipLines false (c :: t) = some (c :: t) := by
  have hne (x : Char) (hx : isBareKeyChar x = false) (hother : '[' ≠ x) : c ≠ x := by
    rcases hc with hc | rfl
    · exact ne_of_isBareKeyChar hc hx
    · exact hother
  have hblank : isBlank c = false := by
    rcases hc with hc | rfl
    · exact isBlank_of_isBareKeyChar hc
    · decide
  unfold skipLines
  split
  · rename_i heq
    cases heq
  · rename_i heq
    exact absurd (List.cons.inj heq).1 (hne '\n' (by decide) (by decide))
  · rename_i heq
    exact absurd (List.cons.inj heq).1 (hne '\r' (by decide) (by decide))
  · rename_i heq
    cases heq
    simp [hblank, hne '#' (by decide) (by decide)]

theorem expressions_feed (n : Nat) (d : Draft) (t : Text) :
    expressions n d ('\n' :: t) = expressions n d t := by
  cases n with
  | zero => rfl
  | succ n => rfl

theorem expressions_succ (hc : isBareKeyChar c = true ∨ c = '[')
    (h : expression d (c :: t) = some (d', '\n' :: rest)) (n : Nat) :
    expressions (n + 1) d (c :: t) = expressions n d' rest := by
  rw [expressions, skipLines_start hc]
  simp only [Option.bind_eq_bind, Option.bind_some, h]
  exact expressions_feed n d' rest

/-- A line is one step of the reader, and none if it is empty. -/
theorem expressions_line {line : Text} (h : ReadsLine d line d') (rest : Text) (n : Nat) :
    ∃ m, n ≤ m ∧ expressions (n + 1) d (line ++ '\n' :: rest) = expressions m d' rest := by
  cases h with
  | empty => exact ⟨n + 1, Nat.le_succ n, expressions_feed (n + 1) d rest⟩
  | header hk h =>
    have hread := expression_header hk h ('\n' :: rest)
    rw [List.cons_append, List.append_assoc, List.singleton_append]
    exact ⟨n, Nat.le_refl n, expressions_succ (.inr rfl) hread n⟩
  | entry hk hv h =>
    have hread := expression_entry hk hv h rest
    obtain ⟨c, cs, rfl, hc⟩ := hk.exists_cons
    exact ⟨n, Nat.le_refl n, expressions_succ (.inl hc) hread n⟩

theorem expressions_lines (h : Reads d lines d') (hn : lines.length < n) :
    expressions n d (lines.flatMap (· ++ ['\n'])) = some d' := by
  induction h generalizing n with
  | nil =>
    obtain ⟨n, rfl⟩ := Nat.exists_eq_add_of_lt hn
    rfl
  | @cons d d' d'' line lines hline _ ih =>
    cases n with
    | zero => cases hn
    | succ n =>
      obtain ⟨m, hm, hstep⟩ := expressions_line hline (lines.flatMap (· ++ ['\n'])) n
      rw [List.flatMap_cons, List.append_assoc, List.singleton_append, hstep]
      exact ih (Nat.lt_of_lt_of_le (Nat.lt_of_succ_lt_succ hn) hm)

theorem length_le_length_flatMap (lines : List Text) :
    lines.length ≤ (lines.flatMap (· ++ ['\n'])).length := by
  induction lines with
  | nil => exact Nat.le_refl 0
  | cons line lines ih =>
    rw [List.flatMap_cons, List.length_append, List.length_append, List.length_cons,
      List.length_singleton]
    omega

theorem parse?_lines (h : Reads .empty lines d)
    (hmark : (lines.flatMap (· ++ ['\n'])).head? ≠ some (Char.ofNat 0xFEFF)) :
    parse? (lines.flatMap (· ++ ['\n'])) = some d.members := by
  have hdrop : dropMark (lines.flatMap (· ++ ['\n'])) = lines.flatMap (· ++ ['\n']) := by
    generalize lines.flatMap (· ++ ['\n']) = t at hmark ⊢
    cases t with
    | nil => rfl
    | cons c t =>
      have hc : Char.ofNat 0xFEFF ≠ c := fun hc => hmark (by rw [hc]; rfl)
      rw [dropMark, Text.dropStart?, List.isPrefixOf?, if_neg (by simpa using hc)]
      rfl
  rw [parse?, hdrop, expressions_lines h (Nat.lt_succ_of_le (length_le_length_flatMap lines))]
  rfl

end Lines

/-! ### Sections -/

structure Entry where
  key : Text
  text : Text
  value : Toml
  bare : IsBareKey key
  spells : Spells text value

structure Section where
  name : Text
  entries : List Entry
  bare : IsBareKey name
  nodup : (entries.map Entry.key).Nodup

def Entry.line (e : Entry) : Text := e.key ++ " = ".toList ++ e.text

def Entry.member (e : Entry) : Text × Toml := (e.key, e.value)

namespace Section

def lines (s : Section) : List Text := ('[' :: (s.name ++ [']'])) :: s.entries.map Entry.line

def member (s : Section) : Text × Toml :=
  (s.name, table .header (Entries.insertAll (s.entries.map Entry.member) []))

end Section

variable {d : Draft} {ms sub : Members} {name : Text}

/-- A draft in a section that was opened after others, with these members so far. -/
def Draft.within (ms : Members) (name : Text) (sub : Members) : Draft :=
  ⟨Entries.insert name (table .header sub) ms, some ⟨[], name, false⟩⟩

theorem Draft.startSection_new (h : Entries.find? name d.members = none) :
    d.startSection ⟨[], name, false⟩ = some (within d.members name []) := by
  have hopen : openTable name .header d.members =
      some (.header, Entries.insert name (table .header []) d.members) := by rw [openTable, h]
  change (openTable name .header d.members).bind _ = _
  rw [hopen]
  rfl

theorem Draft.add_new (h : Entries.find? k sub = none) :
    (within ms name sub).add [] k v = some (within ms name (Entries.insert k v sub)) := by
  have hfind : Entries.find? name (within ms name sub).members = some (table .header sub) := by
    rw [within, Entries.find?_insert, if_pos rfl]
  have hadd : addValue [] k v .header sub = some (.header, Entries.insert k v sub) := by
    change addNew k v .header sub = _
    rw [addNew, h]
    rfl
  have hinsert : Entries.insert name (table .header (Entries.insert k v sub))
      (within ms name sub).members = (within ms name (Entries.insert k v sub)).members :=
    Entries.insert_insert name _ _ ms
  change (descend false (addValue [] k v) [name] .header _).bind _ = _
  rw [descend, hfind]
  simp only [descend, hadd, reduceCtorEq, Bool.false_eq_true, false_and, or_self, if_false,
    Option.bind_eq_bind, Option.bind_some, Option.pure_def, hinsert]
  rfl

theorem reads_entries {es : List Entry} (hnodup : (es.map Entry.key).Nodup)
    (hnew : ∀ e ∈ es, Entries.find? e.key sub = none) :
    Reads (.within ms name sub) (es.map Entry.line)
      (.within ms name (Entries.insertAll (es.map Entry.member) sub)) := by
  induction es generalizing sub with
  | nil => exact .nil _
  | cons e es ih =>
    obtain ⟨hkey, hnodup⟩ := List.nodup_cons.1 hnodup
    obtain ⟨he, hnew⟩ := List.forall_mem_cons.1 hnew
    refine .cons (.entry e.bare e.spells (Draft.add_new he)) (ih hnodup fun f hf => ?_)
    have hne : e.key ≠ f.key := fun h => hkey (h ▸ List.mem_map_of_mem hf)
    rw [Entries.find?_insert, if_neg hne, hnew f hf]

theorem reads_section (s : Section) (h : Entries.find? s.name d.members = none) :
    ∃ d', Reads d s.lines d' ∧
      d'.members = Entries.insert s.member.1 s.member.2 d.members :=
  ⟨_, .cons (.header s.bare (Draft.startSection_new h)) (reads_entries s.nodup fun _ _ => rfl), rfl⟩

theorem reads_sections {ss : List Section} (hnodup : (ss.map Section.name).Nodup)
    (hnew : ∀ s ∈ ss, Entries.find? s.name d.members = none) :
    ∃ d', Reads d (ss.flatMap fun s => [] :: s.lines) d' ∧
      d'.members = Entries.insertAll (ss.map Section.member) d.members := by
  induction ss generalizing d with
  | nil => exact ⟨d, .nil d, rfl⟩
  | cons s ss ih =>
    obtain ⟨hname, hnodup⟩ := List.nodup_cons.1 hnodup
    obtain ⟨hs, hnew⟩ := List.forall_mem_cons.1 hnew
    obtain ⟨d₁, hfirst, hmembers⟩ := reads_section s hs
    obtain ⟨d₂, hrest, hall⟩ := ih (d := d₁) hnodup fun r hr => by
      have hne : s.name ≠ r.name := fun h => hname (h ▸ List.mem_map_of_mem hr)
      rw [hmembers, Entries.find?_insert, Section.member, if_neg hne, hnew r hr]
    rw [hmembers] at hall
    exact ⟨d₂, .append (.cons (.empty d) hfirst) hrest, hall⟩

def documentLines : List Section → List Text
  | [] => []
  | s :: ss => s.lines ++ ss.flatMap fun s => [] :: s.lines

theorem parse?_document {ss : List Section} (hnodup : (ss.map Section.name).Nodup) :
    parse? ((documentLines ss).flatMap (· ++ ['\n'])) =
      some (Entries.insertAll (ss.map Section.member) []) := by
  cases ss with
  | nil => rfl
  | cons s ss =>
    obtain ⟨hname, hnodup⟩ := List.nodup_cons.1 hnodup
    obtain ⟨d₁, hfirst, hmembers⟩ := reads_section (d := .empty) s rfl
    obtain ⟨d₂, hrest, hall⟩ := reads_sections (d := d₁) hnodup fun r hr => by
      have hne : s.name ≠ r.name := fun h => hname (h ▸ List.mem_map_of_mem hr)
      rw [hmembers, Entries.find?_insert, Section.member, if_neg hne]
      rfl
    rw [hmembers] at hall
    refine (parse?_lines (hfirst.append hrest) nofun).trans (congrArg some hall)

end ManifestShell.Toml
