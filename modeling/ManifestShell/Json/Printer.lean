import ManifestShell.Number
import ManifestShell.Table

/-! JSON values and how they are written.
Whole numbers between `-2 ^ 63` and `2 ^ 64 - 1` are `int`, every other number is `float`.  The
members of an object are in ascending order of their names. -/
namespace ManifestShell

inductive Json where
  | null
  | bool (b : Bool)
  | int (i : Int)
  | float (x : Binary64)
  | str (t : Text)
  | arr (items : List Json)
  | obj (members : List (Text × Json))

namespace Json

instance : Inhabited Json := ⟨null⟩

/-- An object whose members were given in any order; of two with one name the later one counts. -/
def ofMembers (members : List (Text × Json)) : Json := obj (Entries.insertAll members [])

def member? (name : Text) : Json → Option Json
  | obj members => Entries.find? name members
  | _ => none

/-- Positional notation from `1e-5` to below `1e16`. -/
def floatLayout : FloatLayout := ⟨-5, 15⟩

def hexDigit (n : Nat) : Char := (Nat.digitChar (n % 16))

def escapeChar (c : Char) : Text :=
  if c = '"' then "\\\""
  else if c = '\\' then "\\\\"
  else if c = '\n' then "\\n"
  else if c = '\r' then "\\r"
  else if c = '\t' then "\\t"
  else if c.toNat = 8 then "\\b"
  else if c.toNat = 12 then "\\f"
  else if c.toNat < 32 then "\\u00".toList ++ [hexDigit (c.toNat / 16), hexDigit c.toNat]
  else [c]

def quote (t : Text) : Text := '"' :: t.flatMap escapeChar ++ ['"']

def scalarText : Json → Text
  | null => "null"
  | bool true => "true"
  | bool false => "false"
  | int i => FloatLayout.intText i
  | float x => floatLayout.render x
  | str t => quote t
  | arr _ => "[]"
  | obj _ => "\x7b\x7d"

mutual

def compact : Json → Text
  | arr items => '[' :: compactItems items ++ [']']
  | obj members => '\x7b' :: compactMembers members ++ ['\x7d']
  | v => scalarText v

def compactItems : List Json → Text
  | [] => []
  | [v] => compact v
  | v :: vs => compact v ++ ',' :: compactItems vs

def compactMembers : List (Text × Json) → Text
  | [] => []
  | [(name, v)] => quote name ++ ':' :: compact v
  | (name, v) :: ms => quote name ++ ':' :: compact v ++ ',' :: compactMembers ms

end

def newline (level : Nat) : Text := '\n' :: List.replicate (2 * level) ' '

mutual

def prettyAt (level : Nat) : Json → Text
  | arr [] => "[]"
  | obj [] => "\x7b\x7d"
  | arr (v :: vs) => '[' :: prettyItems (level + 1) (v :: vs) ++ newline level ++ [']']
  | obj (m :: ms) => '\x7b' :: prettyMembers (level + 1) (m :: ms) ++ newline level ++ ['\x7d']
  | v => scalarText v

def prettyItems (level : Nat) : List Json → Text
  | [] => []
  | [v] => newline level ++ prettyAt level v
  | v :: vs => newline level ++ prettyAt level v ++ ',' :: prettyItems level vs

def prettyMembers (level : Nat) : List (Text × Json) → Text
  | [] => []
  | [(name, v)] => newline level ++ quote name ++ ':' :: ' ' :: prettyAt level v
  | (name, v) :: ms =>
    newline level ++ quote name ++ ':' :: ' ' :: prettyAt level v ++ ',' :: prettyMembers level ms

end

def pretty (v : Json) : Text := prettyAt 0 v

end Json

end ManifestShell
