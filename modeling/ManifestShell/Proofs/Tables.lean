import Mathlib.Data.List.Basic
import Mathlib.Data.List.Sort
import ManifestShell.Table
import ManifestShell.Text.Basic

/-! Ordered texts and what is filed under them.
Candidates and names are compared by code point; outside the library they are sequences of bytes,
and the encoding keeps the order.  A table is determined by what is found under each key: filing a
value changes what is found under its key and nothing else, and so does taking a key out. -/
namespace ManifestShell

/-! ### The order of encodings -/

namespace Text

def bytes (t : Text) : List UInt8 := t.flatMap String.utf8EncodeChar

@[simp] theorem bytes_nil : bytes [] = [] := rfl

@[simp] theorem bytes_cons (c : Char) (t : Text) :
    bytes (c :: t) = String.utf8EncodeChar c ++ bytes t := rfl

theorem toNat_lt_of_valid (c : Char) : c.val.toNat < 1114112 := by
  rcases c.valid with h | h <;> omega

/-- Whatever follows, the smaller of two characters has the smaller encoding. -/
theorem encode_append_lt {c d : Char} (h : c < d) (s t : List UInt8) :
    String.utf8EncodeChar c ++ s < String.utf8EncodeChar d ++ t := by
  have hv : c.val.toNat < d.val.toNat := h
  have hmax := toNat_lt_of_valid d
  -- the leading bytes as repeated quotients by 64, so that they can be compared digit by digit
  have h2 (n : ℕ) : n / 4096 = n / 64 / 64 := by omega
  have h3 (n : ℕ) : n / 262144 = n / 64 / 64 / 64 := by omega
  unfold String.utf8EncodeChar
  simp only [h2, h3]
  split_ifs <;>
    simp only [List.cons_append, List.nil_append, List.cons_lt_cons_iff, UInt8.lt_iff_toNat_lt,
      ← UInt8.toNat_inj, UInt8.toNat_ofNat', Nat.reducePow]
  all_goals omega

theorem bytes_lt_bytes {s t : Text} (h : s < t) : bytes s < bytes t := by
  induction s generalizing t with
  | nil =>
    cases t with
    | nil => exact absurd h (List.lt_irrefl _)
    | cons d t =>
      obtain ⟨b, bs, hb⟩ := List.exists_cons_of_ne_nil (String.utf8EncodeChar_ne_nil (c := d))
      rw [bytes_nil, bytes_cons, hb, List.cons_append]
      exact List.nil_lt_cons b _
  | cons c s ih =>
    cases t with
    | nil => exact absurd h (List.not_lt_nil _)
    | cons d t =>
      rw [bytes_cons, bytes_cons]
      rcases List.cons_lt_cons_iff.1 h with hcd | ⟨rfl, hst⟩
      · exact encode_append_lt hcd _ _
      · exact List.append_left_lt (ih hst)

theorem bytes_lt_bytes_iff {s t : Text} : bytes s < bytes t ↔ s < t := by
  refine ⟨fun h => ?_, bytes_lt_bytes⟩
  by_contra hst
  by_cases hts : t < s
  · exact List.lt_irrefl _ (List.lt_trans h (bytes_lt_bytes hts))
  · rw [eq_of_not_lt hst hts] at h
    exact List.lt_irrefl _ h

end Text

/-! ### Tables -/

namespace Entries

variable {α : Type} {es : List (Text × α)} {k : Text} {v : α}

theorem mem_of_find? (h : find? k es = some v) : (k, v) ∈ es := by
  induction es with
  | nil => simp [find?] at h
  | cons e es ih =>
    unfold find? at h
    split_ifs at h with hk
    · obtain rfl : e.2 = v := by simpa using h
      exact hk ▸ List.mem_cons_self
    · exact List.mem_cons_of_mem _ (ih h)

theorem find?_of_mem (hes : Ascending es) (h : (k, v) ∈ es) : find? k es = some v := by
  induction es with
  | nil => simp at h
  | cons e es ih =>
    obtain ⟨he, hes⟩ := List.pairwise_cons.1 hes
    unfold find?
    rcases List.mem_cons.1 h with rfl | h
    · simp
    · have hne : e.1 ≠ k := fun hk => by
        have hlt := he _ h
        rw [hk] at hlt
        exact List.lt_irrefl _ hlt
      rw [if_neg hne, ih hes h]

theorem find?_isSome_iff : (find? k es).isSome ↔ k ∈ es.map Prod.fst := by
  induction es with
  | nil => simp [find?]
  | cons e es ih =>
    unfold find?
    by_cases h : e.1 = k
    · simp [h]
    · simp [h, ih, Ne.symm h]

theorem find?_cons (e : Text × α) (es : List (Text × α)) (k : Text) :
    find? k (e :: es) = if e.1 = k then some e.2 else find? k es := rfl

theorem find?_insert (k k' : Text) (v : α) (es : List (Text × α)) :
    find? k' (insert k v es) = if k = k' then some v else find? k' es := by
  induction es with
  | nil => rfl
  | cons e es ih =>
    unfold insert
    split_ifs with hlt hk hgt hk hk
    · simp [find?_cons, hk]
    · simp [find?_cons, hk]
    · have hne : e.1 ≠ k' := fun he => by
        rw [he, hk] at hgt
        exact List.lt_irrefl _ hgt
      rw [find?_cons, if_neg hne, ih, if_pos hk]
    · rw [find?_cons, ih, if_neg hk, find?_cons]
    · simp [find?_cons, hk]
    · have hne : e.1 ≠ k' := fun he => hk ((Text.eq_of_not_lt hlt hgt).trans he)
      simp [find?_cons, hk, hne]

theorem find?_erase (k k' : Text) (es : List (Text × α)) :
    find? k' (erase k es) = if k = k' then none else find? k' es := by
  induction es with
  | nil => simp [erase, find?]
  | cons e es ih =>
    by_cases he : e.1 = k
    · have hdrop : erase k (e :: es) = erase k es := by simp [erase, he]
      rw [hdrop, ih, find?_cons, he]
      split_ifs <;> rfl
    · have hkeep : erase k (e :: es) = e :: erase k es := by simp [erase, he]
      rw [hkeep, find?_cons, ih, find?_cons]
      by_cases hk : k = k'
      · have hne : e.1 ≠ k' := fun h => he (h.trans hk.symm)
        simp [hk, hne]
      · simp [hk]

theorem insert_of_forall_lt (h : ∀ e ∈ es, e.1 < k) : insert k v es = es ++ [(k, v)] := by
  induction es with
  | nil => rfl
  | cons e es ih =>
    obtain ⟨he, hes⟩ := List.forall_mem_cons.1 h
    rw [insert, if_neg (List.lt_asymm he), if_pos he, ih hes, List.cons_append]

theorem insert_insert (k : Text) (v w : α) (es : List (Text × α)) :
    insert k w (insert k v es) = insert k w es := by
  have hself (u : α) (fs : List (Text × α)) : insert k w ((k, u) :: fs) = (k, w) :: fs := by
    rw [insert, if_neg (List.lt_irrefl k), if_neg (List.lt_irrefl k)]
  induction es with
  | nil => exact hself v []
  | cons e es ih =>
    rw [insert, insert]
    split_ifs with hlt hgt
    · exact hself v (e :: es)
    · rw [insert, if_neg hlt, if_pos hgt, ih]
    · exact hself v es

theorem mem_insertAll {kvs : List (Text × α)} {e : Text × α} (h : e ∈ insertAll kvs es) :
    e ∈ kvs ∨ e ∈ es := by
  induction kvs generalizing es with
  | nil => exact Or.inr h
  | cons kv kvs ih =>
    rcases ih h with h | h
    · exact Or.inl (List.mem_cons_of_mem _ h)
    · rcases mem_insert h with rfl | h
      · exact Or.inl List.mem_cons_self
      · exact Or.inr h

theorem find?_insertAll_of_notMem {kvs : List (Text × α)} (h : k ∉ kvs.map Prod.fst) :
    find? k (insertAll kvs es) = find? k es := by
  induction kvs generalizing es with
  | nil => rfl
  | cons kv kvs ih =>
    rw [List.map_cons, List.mem_cons, not_or] at h
    rw [insertAll, List.foldl_cons]
    refine (ih h.2).trans ?_
    rw [find?_insert, if_neg (Ne.symm h.1)]

theorem find?_insertAll_of_mem {kvs : List (Text × α)} (hnodup : (kvs.map Prod.fst).Nodup)
    (h : (k, v) ∈ kvs) : find? k (insertAll kvs es) = some v := by
  induction kvs generalizing es with
  | nil => cases h
  | cons kv kvs ih =>
    obtain ⟨hfresh, hnodup⟩ := List.nodup_cons.1 hnodup
    rw [insertAll, List.foldl_cons]
    rcases List.mem_cons.1 h with rfl | h
    · refine (find?_insertAll_of_notMem hfresh).trans ?_
      rw [find?_insert, if_pos rfl]
    · exact ih hnodup h

/-- Pairs that are in order already are filed one behind the other. -/
theorem insertAll_of_ascending {kvs : List (Text × α)} (h : Ascending (es ++ kvs)) :
    insertAll kvs es = es ++ kvs := by
  induction kvs generalizing es with
  | nil => exact (List.append_nil es).symm
  | cons kv kvs ih =>
    have hlast : ∀ e ∈ es, e.1 < kv.1 := fun e he =>
      (List.pairwise_append.1 h).2.2 e he kv List.mem_cons_self
    have hinsert : insert kv.1 kv.2 es = es ++ [kv] := insert_of_forall_lt hlast
    rw [List.append_cons] at h ⊢
    rw [insertAll, List.foldl_cons, hinsert]
    exact ih h

end Entries

namespace Table

variable {α : Type} {t : Table α} {k : Text} {v : α}

@[simp] theorem find?_insert (t : Table α) (k k' : Text) (v : α) :
    (t.insert k v).find? k' = if k = k' then some v else t.find? k' :=
  Entries.find?_insert k k' v t.entries

@[simp] theorem find?_erase (t : Table α) (k k' : Text) :
    (t.erase k).find? k' = if k = k' then none else t.find? k' :=
  Entries.find?_erase k k' t.entries

theorem mem_keys_iff : k ∈ t.keys ↔ (t.find? k).isSome := Entries.find?_isSome_iff.symm

theorem entries_ofList (kvs : List (Text × α)) :
    (ofList kvs).entries = Entries.insertAll kvs [] := by
  have hfold (t : Table α) : (kvs.foldl (fun t kv => t.insert kv.1 kv.2) t).entries =
      Entries.insertAll kvs t.entries := by
    unfold Entries.insertAll
    induction kvs generalizing t with
    | nil => rfl
    | cons kv kvs ih => exact ih _
  exact hfold empty

theorem ofList_entries (t : Table α) : ofList t.entries = t := by
  obtain ⟨es, hes⟩ := t
  have hinsert : Entries.insertAll es [] = [] ++ es := Entries.insertAll_of_ascending hes
  have hentries : (ofList es).entries = es := by rw [entries_ofList, hinsert, List.nil_append]
  cases h : ofList es
  simp_all

end Table

end ManifestShell
