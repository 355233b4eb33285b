import ManifestShell.Table

/-! TOML values and the rules by which tables grow.
A table is written down in one of four ways, and that decides how it may be added to later: implied
by a longer header, made by a dotted key, opened by a header of its own, or written inline. -/
namespace ManifestShell

inductive TableOrigin where
  | implied
  | dotted
  | header
  | inline
  deriving DecidableEq, Repr

inductive Toml where
  | str (t : Text)
  | int (i : Int)
  /-- Of a float only matters whether it is in range. -/
  | float (inRange : Bool)
  | bool (b : Bool)
  | datetime
  | arr (items : List Toml)
  /-- The tables opened by headers in double brackets. -/
  | tables (items : List (List (Text × Toml)))
  | table (origin : TableOrigin) (entries : List (Text × Toml))

namespace Toml

instance : Inhabited Toml := ⟨datetime⟩

abbrev Members := List (Text × Toml)

/-- Goes down the keys of a path, making tables that are missing, and changes the table at its end.
A dotted path of a key does not lead into tables that have a header, and no path leads into other
values. -/
def descend (dotted : Bool) (change : TableOrigin → Members → Option (TableOrigin × Members)) :
    List Text → TableOrigin → Members → Option (TableOrigin × Members)
  | [], origin, ms => change origin ms
  | k :: ks, origin, ms =>
    match Entries.find? k ms with
    | none => do
      let (o, sub) ← descend dotted change ks (if dotted then .dotted else .implied) []
      return (origin, Entries.insert k (table o sub) ms)
    | some (table o sub) =>
      if o = .inline ∨ (dotted ∧ o = .header) then none
      else do
        let (o, sub) ← descend dotted change ks o sub
        return (origin, Entries.insert k (table o sub) ms)
    | some (tables items) =>
      if dotted then none
      else
        match items.getLast? with
        | none => none
        | some last => do
          let (_, sub) ← descend dotted change ks .header last
          return (origin, Entries.insert k (tables (items.dropLast ++ [sub])) ms)
    | some _ => none

def addNew (k : Text) (v : Toml) (origin : TableOrigin) (ms : Members) :
    Option (TableOrigin × Members) :=
  if (Entries.find? k ms).isSome then none else some (origin, Entries.insert k v ms)

/-- Adds a value under a dotted key, of which the last part comes after the path. -/
def addValue (path : List Text) (k : Text) (v : Toml) (origin : TableOrigin) (ms : Members) :
    Option (TableOrigin × Members) :=
  descend true
    (fun o sub => if path ≠ [] ∧ o ≠ .dotted then none else addNew k v o sub) path origin ms

/-- Opens the table of a header.  A table that was only implied so far gets its header now. -/
def openTable (k : Text) (origin : TableOrigin) (ms : Members) : Option (TableOrigin × Members) :=
  match Entries.find? k ms with
  | none => some (origin, Entries.insert k (table .header []) ms)
  | some (table .implied sub) => some (origin, Entries.insert k (table .header sub) ms)
  | some _ => none

/-- Opens one more table of a header in double brackets. -/
def appendTable (k : Text) (origin : TableOrigin) (ms : Members) :
    Option (TableOrigin × Members) :=
  match Entries.find? k ms with
  | none => some (origin, Entries.insert k (tables [[]]) ms)
  | some (tables items) => some (origin, Entries.insert k (tables (items ++ [[]])) ms)
  | some _ => none

/-- A header: its keys, and whether it stands in double brackets. -/
structure Header where
  path : List Text
  last : Text
  repeated : Bool

/-- A document that is being read: its members, and the header that was read last. -/
structure Draft where
  members : Members
  header : Option Header

namespace Draft

def empty : Draft := ⟨[], none⟩

def startSection (d : Draft) (h : Header) : Option Draft := do
  let start := if h.repeated then appendTable h.last else openTable h.last
  let (_, ms) ← descend false start h.path .header d.members
  return ⟨ms, some h⟩

def add (d : Draft) (path : List Text) (k : Text) (v : Toml) : Option Draft := do
  let below := match d.header with
    | some h => h.path ++ [h.last]
    | none => []
  let (_, ms) ← descend false (addValue path k v) below .header d.members
  return { d with members := ms }

end Draft
end Toml
end ManifestShell
