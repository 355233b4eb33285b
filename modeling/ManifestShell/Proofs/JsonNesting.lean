import Mathlib.Data.List.DropRight
import ManifestShell.Proofs.JsonScalars
import ManifestShell.Proofs.Tables

/-! Arrays and objects of JSON, written and read back.
The items of an array and the members of an object are read by one loop that differs only in what an
item is and in what closes the list.  From this, a value whose numbers are whole and whose nesting
is within the bound is what its compact text reads as. -/
namespace ManifestShell.Json

variable {α : Type}

/-! ### Blanks -/

theorem skipSpace_append {gap : Text} (h : ∀ c ∈ gap, isSpace c = true) (t : Text) :
    skipSpace (gap ++ t) = skipSpace t := List.dropWhile_append_of_pos h

theorem skipSpace_cons {c : Char} (h : isSpace c = false) (t : Text) :
    skipSpace (c :: t) = c :: t := by
  simp [skipSpace, h]

theorem skipSpace_skipSpace (t : Text) : skipSpace (skipSpace t) = skipSpace t :=
  List.dropWhile_idempotent isSpace t

theorem value_skipSpace (d : Nat) (t : Text) : value d (skipSpace t) = value d t := by
  cases d with
  | zero => rw [value, value, skipSpace_skipSpace]
  | succ d => rw [value, value, skipSpace_skipSpace]

theorem memberName_skipSpace (t : Text) : memberName (skipSpace t) = memberName t := by
  rw [memberName, memberName, skipSpace_skipSpace]

theorem endsNumber_gap {gap : Text} {c : Char} (hgap : ∀ d ∈ gap, isSpace d = true)
    (hc : isDigit c = false ∧ c ≠ '.' ∧ c ≠ 'e' ∧ c ≠ 'E') (rest : Text) :
    EndsNumber (gap ++ c :: rest) := by
  cases gap with
  | nil => exact endsNumber_cons hc rest
  | cons d gap =>
    have hspace := hgap d (by simp)
    simp only [isSpace, Bool.or_eq_true, beq_iff_eq] at hspace
    refine endsNumber_cons ?_ _
    rcases hspace with ((rfl | rfl) | rfl) | rfl <;> decide

/-! ### Lists -/

/-- The reader makes the value of the text, whatever follows that cannot go on with a number. -/
def Takes (read : Reader α) (t : Text) (v : α) : Prop :=
  ∀ rest, EndsNumber rest → read (t ++ rest) = some (v, rest)

def listTo (close : Char) (item : Reader α) : Nat → Reader (List α)
  | 0, _ => none
  | n + 1, t => do
    let (v, rest) ← item t
    match skipSpace rest with
    | [] => none
    | c :: cs =>
      if c = ',' then do
        let (vs, rest) ← listTo close item n cs
        return (v :: vs, rest)
      else if c = close then some ([v], cs)
      else none

theorem items_eq (item : Reader α) (n : Nat) (t : Text) :
    items item n t = listTo ']' item n t := by
  induction n generalizing t with
  | zero => rfl
  | succ n ih =>
    unfold items listTo
    cases item t with
    | none => rfl
    | some p =>
      simp only [Option.bind_eq_bind, Option.bind_some]
      cases skipSpace p.2 with
      | nil => rfl
      | cons c cs =>
        by_cases hcomma : c = ','
        · subst hcomma
          simp [ih]
        · by_cases hclose : c = ']'
          · subst hclose
            rfl
          · simp [hcomma, hclose]

def member (read : Text → Reader α) : Reader (Text × α)
  | t => do
    let (name, rest) ← memberName t
    let (v, rest) ← read name rest
    return ((name, v), rest)

theorem members_eq (read : Text → Reader α) (n : Nat) (t : Text) :
    members read n t = listTo '\x7d' (member read) n t := by
  induction n generalizing t with
  | zero => rfl
  | succ n ih =>
    rw [members, listTo, member]
    cases memberName t with
    | none => rfl
    | some p =>
      simp only [Option.bind_eq_bind, Option.bind_some]
      cases read p.1 p.2 with
      | none => rfl
      | some q =>
        simp only [Option.bind_some, Option.pure_def]
        cases skipSpace q.2 with
        | nil => rfl
        | cons c cs =>
          by_cases hcomma : c = ','
          · subst hcomma
            simp [ih]
          · by_cases hclose : c = '\x7d'
            · subst hclose
              rfl
            · simp [hcomma, hclose]

section Written

variable {item : Reader α} {write : α → Text} {close : Char} {trail : Text} {vs : List α}

structure Closing (c : Char) : Prop where
  not_comma : c ≠ ','
  not_space : isSpace c = false
  ends_number : isDigit c = false ∧ c ≠ '.' ∧ c ≠ 'e' ∧ c ≠ 'E'

theorem listTo_written {n : Nat} (hclose : Closing close) (htrail : ∀ c ∈ trail, isSpace c = true)
    (hitem : ∀ v ∈ vs, Takes item (write v) v) (hne : vs ≠ []) (hn : vs.length ≤ n) (rest : Text) :
    listTo close item n ([','].intercalate (vs.map write) ++ (trail ++ close :: rest)) =
      some (vs, rest) := by
  induction vs generalizing n with
  | nil => exact absurd rfl hne
  | cons v vs ih =>
    obtain ⟨hv, hvs⟩ := List.forall_mem_cons.1 hitem
    obtain ⟨n, rfl⟩ : ∃ m, n = m + 1 := ⟨n - 1, by simp at hn; omega⟩
    cases vs with
    | nil =>
      have hread := hv (trail ++ close :: rest) (endsNumber_gap htrail hclose.ends_number rest)
      have hskip : skipSpace (trail ++ close :: rest) = close :: rest := by
        rw [skipSpace_append htrail, skipSpace_cons hclose.not_space]
      rw [List.map_singleton, List.intercalate_singleton, listTo, hread]
      simp [hskip, hclose.not_comma]
    | cons u us =>
      set after := [','].intercalate ((u :: us).map write) ++ (trail ++ close :: rest) with hafter
      have hread := hv (',' :: after) (endsNumber_cons (by decide) after)
      have hrest : listTo close item n after = some (u :: us, rest) :=
        ih hvs (by simp) (by simpa using hn)
      have htext : [','].intercalate ((v :: u :: us).map write) ++ (trail ++ close :: rest) =
          write v ++ ',' :: after := by
        simp [hafter, List.intercalate_cons_cons]
      have hskip : skipSpace (',' :: after) = ',' :: after := skipSpace_cons (by decide) after
      rw [htext, listTo, hread]
      simp [hskip, hrest]

theorem listTo_skipSpace (hitem : ∀ t, item (skipSpace t) = item t) (n : Nat) (t : Text) :
    listTo close item n (skipSpace t) = listTo close item n t := by
  cases n with
  | zero => rfl
  | succ n => rw [listTo, listTo, hitem]

theorem countP_skipSpace (t : Text) :
    (skipSpace t).countP (fun c => !isSpace c) = t.countP (fun c => !isSpace c) := by
  unfold skipSpace
  induction t with
  | nil => rfl
  | cons c t ih => cases hc : isSpace c <;> simp [hc, ih]

theorem length_le_countP_intercalate (ts : List Text) :
    ts.length ≤ ([','].intercalate ts).countP (fun c => !isSpace c) + 1 := by
  induction ts with
  | nil => simp
  | cons t ts ih =>
    cases ts with
    | nil => simp
    | cons u us =>
      have hcomma : isSpace ',' = false := rfl
      simp only [List.intercalate_cons_cons, List.countP_append, List.countP_cons, hcomma,
        List.length_cons] at ih ⊢
      simp
      omega

/-- There are at least as many characters as items, since each item but the last has its comma and
the last one what closes the list. -/
theorem length_le_skipSpace (hclose : isSpace close = false) (ts : List Text) (trail rest : Text) :
    ts.length ≤ (skipSpace ([','].intercalate ts ++ (trail ++ close :: rest))).length := by
  calc ts.length
      ≤ ([','].intercalate ts).countP (fun c => !isSpace c) + 1 := length_le_countP_intercalate ts
    _ ≤ ([','].intercalate ts ++ (trail ++ close :: rest)).countP (fun c => !isSpace c) := by
      simp [List.countP_append, hclose]
      omega
    _ = (skipSpace ([','].intercalate ts ++ (trail ++ close :: rest))).countP
          (fun c => !isSpace c) := (countP_skipSpace _).symm
    _ ≤ _ := List.countP_le_length

def enclosed (close : Char) (item : Reader α) (t : Text) : Option (List α × Text) :=
  match skipSpace t with
  | [] => none
  | c :: cs => if c = close then some ([], cs) else listTo close item (c :: cs).length (c :: cs)

theorem arrayFrom_eq (item : Reader α) (t : Text) : arrayFrom item t = enclosed ']' item t := by
  unfold arrayFrom enclosed
  cases skipSpace t with
  | nil => rfl
  | cons c cs =>
    by_cases hc : c = ']'
    · subst hc
      rfl
    · simp [hc, items_eq]

theorem objectFrom_eq (read : Text → Reader α) (t : Text) :
    objectFrom read t = enclosed '\x7d' (member read) t := by
  unfold objectFrom enclosed
  cases skipSpace t with
  | nil => rfl
  | cons c cs =>
    by_cases hc : c = '\x7d'
    · subst hc
      rfl
    · simp [hc, members_eq]

/-- A list is read back if the reader of its items passes over blanks and does not take what closes
the list for an item. -/
theorem enclosed_written (hclose : Closing close) (htrail : ∀ c ∈ trail, isSpace c = true)
    (hskip : ∀ t, item (skipSpace t) = item t) (hnone : ∀ cs, item (close :: cs) = none)
    (hitem : ∀ v ∈ vs, Takes item (write v) v) (rest : Text) :
    enclosed close item ([','].intercalate (vs.map write) ++ (trail ++ close :: rest)) =
      some (vs, rest) := by
  by_cases hne : vs = []
  · subst hne
    simp [enclosed, skipSpace_append htrail, skipSpace_cons hclose.not_space]
  · set t := [','].intercalate (vs.map write) ++ (trail ++ close :: rest) with ht
    have hlength : vs.length ≤ (skipSpace t).length := by
      simpa using length_le_skipSpace hclose.not_space (vs.map write) trail rest
    have hread : listTo close item (skipSpace t).length (skipSpace t) = some (vs, rest) := by
      rw [listTo_skipSpace hskip]
      exact listTo_written hclose htrail hitem hne hlength rest
    unfold enclosed
    cases hs : skipSpace t with
    | nil => simp [hs, listTo] at hread
    | cons c cs =>
      rw [hs] at hread
      have hc : c ≠ close := by
        rintro rfl
        simp [listTo, hnone] at hread
      simpa [hc] using hread

end Written

/-! ### Values -/

section Values

variable {d : Nat} {t : Text} {v : Json}

theorem memberName_quote {gap : Text} (hgap : ∀ c ∈ gap, isSpace c = true) (name rest : Text) :
    memberName (gap ++ (quote name ++ ':' :: rest)) = some (name, rest) := by
  have hquote : quote name ++ ':' :: rest =
      '"' :: (name.flatMap escapeChar ++ '"' :: ':' :: rest) := by simp [quote]
  have hskip : skipSpace (gap ++ (quote name ++ ':' :: rest)) =
      '"' :: (name.flatMap escapeChar ++ '"' :: ':' :: rest) := by
    rw [skipSpace_append hgap, hquote, skipSpace_cons (by decide)]
  have hcolon : skipSpace (':' :: rest) = ':' :: rest := skipSpace_cons (by decide) rest
  simp only [memberName, hskip, stringFrom_quoted, hcolon, Option.bind_eq_bind, Option.bind_some,
    Option.pure_def]

theorem takes_member {read : Reader α} {v : α} {gap : Text} (hgap : ∀ c ∈ gap, isSpace c = true)
    (name : Text) (h : Takes read t v) :
    Takes (member fun _ => read) (gap ++ (quote name ++ ':' :: t)) (name, v) := by
  intro rest hrest
  have htext : gap ++ (quote name ++ ':' :: t) ++ rest =
      gap ++ (quote name ++ ':' :: (t ++ rest)) := by simp
  rw [htext, member, memberName_quote hgap]
  simp [h rest hrest]

theorem value_eq_scalar {c : Char} (hspace : isSpace c = false) (hopen : c ≠ '[' ∧ c ≠ '\x7b') :
    value d (c :: t) = scalar (c :: t) := by
  cases d with
  | zero => rw [value, skipSpace_cons hspace]
  | succ d =>
    rw [value, skipSpace_cons hspace]
    split <;> simp_all

theorem takes_str (d : Nat) (t : Text) : Takes (value d) (quote t) (str t) := by
  intro rest _
  have hquote : quote t ++ rest = '"' :: (t.flatMap escapeChar ++ '"' :: rest) := by simp [quote]
  rw [hquote, value_eq_scalar (by decide) (by decide), scalar, stringFrom_quoted]
  rfl

theorem value_of_isDigit {c : Char} (h : isDigit c = true) :
    value d (c :: t) = number false (c :: t) := by
  have hne {x : Char} (hx : isDigit x = false) : c ≠ x := by
    rintro rfl
    simp [hx] at h
  have hspace : isSpace c = false := by
    simp only [isSpace, Bool.or_eq_false_iff, beq_eq_false_iff_ne]
    exact ⟨⟨⟨hne rfl, hne rfl⟩, hne rfl⟩, hne rfl⟩
  have hopen : c ≠ '[' ∧ c ≠ '\x7b' := ⟨hne rfl, hne rfl⟩
  rw [value_eq_scalar hspace hopen]
  unfold scalar
  split <;> simp_all [isDigit]

theorem takes_int {i : Int} (hlow : -Int.pow 2 63 ≤ i) (hhigh : i < Int.pow 2 64) (d : Nat) :
    Takes (value d) (FloatLayout.intText i) (int i) := by
  intro rest hrest
  have hbounds : Int.pow 2 63 = (Nat.pow 2 63 : Nat) ∧ Int.pow 2 64 = (Nat.pow 2 64 : Nat) := by
    decide
  rw [hbounds.1] at hlow
  rw [hbounds.2] at hhigh
  unfold FloatLayout.intText
  split_ifs with hneg
  · have hne : i.natAbs ≠ 0 := by omega
    have hfits : i.natAbs ≤ Nat.pow 2 63 := by omega
    have hi : -(i.natAbs : Int) = i := by omega
    rw [List.cons_append, value_eq_scalar (by decide) (by decide), scalar,
      number_neg_ofNat hne hfits hrest, hi]
  · have hfits : i.natAbs < Nat.pow 2 64 := by omega
    have hi : (i.natAbs : Int) = i := by omega
    have hread := number_ofNat hfits hrest
    cases hcs : Text.ofNat i.natAbs with
    | nil => exact absurd hcs Nat.toDigits_ne_nil
    | cons c cs =>
      have hc : isDigit c = true := isDigit_of_mem_ofNat (hcs ▸ List.mem_cons_self)
      rw [hcs, hi] at hread
      rw [List.cons_append, value_of_isDigit hc]
      exact hread

theorem compactItems_eq (vs : List Json) :
    compactItems vs = [','].intercalate (vs.map compact) := by
  induction vs with
  | nil => rfl
  | cons v vs ih =>
    cases vs with
    | nil => simp [compactItems]
    | cons u us => simp [compactItems, ih, List.intercalate_cons_cons]

def compactMember (m : Text × Json) : Text := quote m.1 ++ ':' :: compact m.2

theorem compactMembers_eq (ms : List (Text × Json)) :
    compactMembers ms = [','].intercalate (ms.map compactMember) := by
  induction ms with
  | nil => rfl
  | cons m ms ih =>
    cases ms with
    | nil => simp [compactMembers, compactMember]
    | cons u us => simp [compactMembers, compactMember, ih, List.intercalate_cons_cons]

/-- A value whose numbers are whole and fit in 64 bits and whose objects are in order, with at most
so many arrays and objects inside each other. -/
inductive Whole : Nat → Json → Prop where
  | null {d : Nat} : Whole d .null
  | bool {d : Nat} (b : Bool) : Whole d (.bool b)
  | int {d : Nat} {i : Int} (low : -Int.pow 2 63 ≤ i) (high : i < Int.pow 2 64) : Whole d (.int i)
  | str {d : Nat} (t : Text) : Whole d (.str t)
  | arr {d : Nat} {items : List Json} (each : ∀ v ∈ items, Whole d v) : Whole (d + 1) (.arr items)
  | obj {d : Nat} {members : List (Text × Json)} (ascending : Entries.Ascending members)
      (each : ∀ m ∈ members, Whole d m.2) : Whole (d + 1) (.obj members)

theorem takes_arr {items : List Json} {write : Json → Text} {trail : Text}
    (htrail : ∀ c ∈ trail, isSpace c = true) (h : ∀ v ∈ items, Takes (value d) (write v) v) :
    Takes (value (d + 1)) ('[' :: [','].intercalate (items.map write) ++ (trail ++ [']']))
      (arr items) := by
  intro rest _
  have hclose : Closing ']' := ⟨by decide, by decide, by decide⟩
  have htext : '[' :: [','].intercalate (items.map write) ++ (trail ++ [']']) ++ rest =
      '[' :: ([','].intercalate (items.map write) ++ (trail ++ ']' :: rest)) := by simp
  have hnone (cs : Text) : value d (']' :: cs) = none := by
    rw [value_eq_scalar (by decide) (by decide)]
    rfl
  have hread : enclosed ']' (value d)
      ([','].intercalate (items.map write) ++ (trail ++ ']' :: rest)) = some (items, rest) :=
    enclosed_written hclose htrail (value_skipSpace d) hnone h rest
  rw [htext, value, skipSpace_cons (by decide)]
  simp only [arrayFrom_eq, hread, Option.map_some]

theorem takes_obj {members : List (Text × Json)} {write : Text × Json → Text} {trail : Text}
    (hmembers : Entries.Ascending members) (htrail : ∀ c ∈ trail, isSpace c = true)
    (h : ∀ m ∈ members, Takes (member fun _ => value d) (write m) m) :
    Takes (value (d + 1)) ('\x7b' :: [','].intercalate (members.map write) ++ (trail ++ ['\x7d']))
      (obj members) := by
  intro rest _
  have hclose : Closing '\x7d' := ⟨by decide, by decide, by decide⟩
  have htext : '\x7b' :: [','].intercalate (members.map write) ++ (trail ++ ['\x7d']) ++ rest =
      '\x7b' :: ([','].intercalate (members.map write) ++ (trail ++ '\x7d' :: rest)) := by simp
  have hskip (t : Text) :
      member (fun _ => value d) (skipSpace t) = member (fun _ => value d) t := by
    rw [member, member, memberName_skipSpace]
  have hnone (cs : Text) : member (fun _ => value d) ('\x7d' :: cs) = none := rfl
  have hinsert : ofMembers members = obj members :=
    congrArg obj (Entries.insertAll_of_ascending (List.nil_append members ▸ hmembers))
  have hread : enclosed '\x7d' (member fun _ => value d)
      ([','].intercalate (members.map write) ++ (trail ++ '\x7d' :: rest)) =
        some (members, rest) :=
    enclosed_written hclose htrail hskip hnone h rest
  rw [htext, value, skipSpace_cons (by decide)]
  simp only [objectFrom_eq, hread, Option.map_some, hinsert]

theorem takes_compact (h : Whole d v) : Takes (value d) (compact v) v := by
  have hgap : ∀ c ∈ ([] : Text), isSpace c = true := by simp
  induction h with
  | null =>
    intro rest _
    exact value_eq_scalar (by decide) (by decide)
  | bool b =>
    intro rest _
    cases b <;> exact value_eq_scalar (by decide) (by decide)
  | int low high => exact takes_int low high _
  | str t => exact takes_str _ t
  | arr _ ih =>
    have hread := takes_arr hgap ih
    rwa [← compactItems_eq] at hread
  | @obj _ members hmembers _ ih =>
    have hitem : ∀ m ∈ members, Takes (member fun _ => value _) (compactMember m) m := fun m hm =>
      takes_member hgap m.1 (ih m hm)
    have hread := takes_obj hmembers hgap hitem
    rwa [← compactMembers_eq] at hread

theorem parse?_of_takes (h : Takes (value maxDepth) t v) : parse? t = some v := by
  have hread : value maxDepth t = some (v, []) := by simpa using h [] endsNumber_nil
  simp [parse?, whole?, hread, skipSpace]

theorem parse?_compact (h : Whole maxDepth v) : parse? (compact v) = some v :=
  parse?_of_takes (takes_compact h)

/-- The empty text is no value, so what reads as one is not empty. -/
theorem compact_ne_nil (h : Whole maxDepth v) : compact v ≠ [] := by
  intro hnil
  have hread := parse?_compact h
  rw [hnil] at hread
  exact absurd hread (by simp [show parse? [] = none from rfl])

end Values

end ManifestShell.Json
