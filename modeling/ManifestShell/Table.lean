import ManifestShell.Text.Basic

/-! Tables: values filed under texts, kept in strictly ascending order of their keys.
`Entries` has the operations on the bare list of pairs; a `Table` is such a list together with the
proof that it is in order. -/
namespace ManifestShell

namespace Entries

variable {α : Type}

def Ascending (es : List (Text × α)) : Prop := es.Pairwise fun a b => a.1 < b.1

def insert (k : Text) (v : α) : List (Text × α) → List (Text × α)
  | [] => [(k, v)]
  | e :: es =>
    if k < e.1 then (k, v) :: e :: es
    else if e.1 < k then e :: insert k v es
    else (k, v) :: es

def find? (k : Text) : List (Text × α) → Option α
  | [] => none
  | e :: es => if e.1 = k then some e.2 else find? k es

def erase (k : Text) (es : List (Text × α)) : List (Text × α) := es.filter fun e => e.1 ≠ k

/-- Files the pairs one after the other, so that a later one wins. -/
def insertAll (kvs es : List (Text × α)) : List (Text × α) :=
  kvs.foldl (fun es kv => insert kv.1 kv.2 es) es

theorem mem_insert {k : Text} {v : α} {es : List (Text × α)} {e : Text × α}
    (h : e ∈ insert k v es) : e = (k, v) ∨ e ∈ es := by
  induction es with
  | nil => simpa [insert] using h
  | cons f es ih =>
    unfold insert at h
    split at h
    · simpa using h
    · split at h
      · rcases List.mem_cons.1 h with h | h
        · exact Or.inr (by simp [h])
        · exact (ih h).imp_right (List.mem_cons_of_mem _)
      · rcases List.mem_cons.1 h with h | h
        · exact Or.inl h
        · exact Or.inr (List.mem_cons_of_mem _ h)

theorem ascending_insert (k : Text) (v : α) {es : List (Text × α)} (h : Ascending es) :
    Ascending (insert k v es) := by
  induction es with
  | nil => simp [insert, Ascending]
  | cons f es ih =>
    obtain ⟨hf, hes⟩ := List.pairwise_cons.1 h
    unfold insert
    split
    · rename_i hk
      refine List.pairwise_cons.2 ⟨fun e he => ?_, h⟩
      rcases List.mem_cons.1 he with rfl | he
      · exact hk
      · exact List.lt_trans hk (hf e he)
    · split
      · rename_i hk
        refine List.pairwise_cons.2 ⟨fun e he => ?_, ih hes⟩
        rcases mem_insert he with rfl | he
        · exact hk
        · exact hf e he
      · rename_i hk hk'
        have hkf : k = f.1 := Text.eq_of_not_lt hk hk'
        exact List.pairwise_cons.2 ⟨fun e he => hkf ▸ hf e he, hes⟩

theorem ascending_erase (k : Text) {es : List (Text × α)} (h : Ascending es) :
    Ascending (erase k es) := List.Pairwise.filter _ h

end Entries

structure Table (α : Type) where
  entries : List (Text × α)
  ascending : Entries.Ascending entries

namespace Table

variable {α : Type}

def empty : Table α := ⟨[], List.Pairwise.nil⟩

instance : Inhabited (Table α) := ⟨empty⟩

def insert (t : Table α) (k : Text) (v : α) : Table α :=
  ⟨Entries.insert k v t.entries, Entries.ascending_insert k v t.ascending⟩

def erase (t : Table α) (k : Text) : Table α :=
  ⟨Entries.erase k t.entries, Entries.ascending_erase k t.ascending⟩

def find? (t : Table α) (k : Text) : Option α := Entries.find? k t.entries

def insertIfNew (t : Table α) (k : Text) (v : α) : Table α :=
  if (t.find? k).isSome then t else t.insert k v

def keys (t : Table α) : List Text := t.entries.map Prod.fst

def size (t : Table α) : Nat := t.entries.length

def isEmpty (t : Table α) : Bool := t.entries.isEmpty

/-- Files the pairs one after the other, so that a later one wins. -/
def ofList (kvs : List (Text × α)) : Table α := kvs.foldl (fun t kv => t.insert kv.1 kv.2) empty

end Table
end ManifestShell
