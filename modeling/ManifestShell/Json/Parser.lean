import ManifestShell.Json.Printer

/-! Reading JSON, strictly: one value with nothing but blanks around it, and at most `maxDepth`
arrays and objects inside each other.
A reader takes a text and gives what it read together with the rest of the text. -/
namespace ManifestShell

namespace Json

abbrev Reader (α : Type) := Text → Option (α × Text)

/-- The four characters that may stand between tokens. -/
def isSpace (c : Char) : Bool := c == ' ' || c == '\n' || c == '\t' || c == '\r'

def skipSpace (t : Text) : Text := t.dropWhile isSpace

def hexValue? (c : Char) : Option Nat :=
  if '0' ≤ c ∧ c ≤ '9' then some (c.toNat - '0'.toNat)
  else if 'a' ≤ c ∧ c ≤ 'f' then some (c.toNat - 'a'.toNat + 10)
  else if 'A' ≤ c ∧ c ≤ 'F' then some (c.toNat - 'A'.toNat + 10)
  else none

def shortEscape? (c : Char) : Option Char :=
  if c = '"' ∨ c = '\\' ∨ c = '/' then some c
  else if c = 'b' then some (Char.ofNat 8)
  else if c = 'f' then some (Char.ofNat 12)
  else if c = 'n' then some '\n'
  else if c = 'r' then some '\r'
  else if c = 't' then some '\t'
  else none

def isHighUnit (n : Nat) : Bool := 0xD800 ≤ n && n ≤ 0xDBFF

def isLowUnit (n : Nat) : Bool := 0xDC00 ≤ n && n ≤ 0xDFFF

/-- Where a string reader stands: between characters, after a backslash, among the four digits of a
code unit, or after the first unit of a pair, of which the second has to follow. -/
inductive StringState where
  | plain
  | escape
  | unit (left : Nat) (read : Nat) (first : Option Nat)
  | pairSlash (first : Nat)
  | pairLetter (first : Nat)

def stringFrom : StringState → Reader Text
  | _, [] => none
  | .plain, c :: cs =>
    if c = '"' then some ([], cs)
    else if c = '\\' then stringFrom .escape cs
    else if c.toNat < 32 then none
    else (stringFrom .plain cs).map fun p => (c :: p.1, p.2)
  | .escape, c :: cs =>
    match shortEscape? c with
    | some d => (stringFrom .plain cs).map fun p => (d :: p.1, p.2)
    | none => if c = 'u' then stringFrom (.unit 3 0 none) cs else none
  | .unit (left + 1) read first, c :: cs =>
    (hexValue? c).bind fun d => stringFrom (.unit left (16 * read + d) first) cs
  | .unit 0 read first, c :: cs =>
    (hexValue? c).bind fun d =>
      let n := 16 * read + d
      match first with
      | none =>
        if isHighUnit n then stringFrom (.pairSlash n) cs
        else if isLowUnit n then none
        else (stringFrom .plain cs).map fun p => (Char.ofNat n :: p.1, p.2)
      | some high =>
        if isLowUnit n then
          let joined := 0x10000 + (high - 0xD800) * 0x400 + (n - 0xDC00)
          (stringFrom .plain cs).map fun p => (Char.ofNat joined :: p.1, p.2)
        else none
  | .pairSlash high, c :: cs => if c = '\\' then stringFrom (.pairLetter high) cs else none
  | .pairLetter high, c :: cs => if c = 'u' then stringFrom (.unit 3 0 (some high)) cs else none

def isDigit (c : Char) : Bool := '0' ≤ c && c ≤ '9'

def digitValue (c : Char) : Nat := c.toNat - '0'.toNat

def digits (t : Text) : Text × Text := (t.takeWhile isDigit, t.dropWhile isDigit)

def natOfDigits (ds : Text) : Nat := ds.foldl (fun n c => 10 * n + digitValue c) 0

/-- Appends digits to a significand as long as it fits in 64 bits; also counts the digits that fit
and those that do not. -/
def extendSignificand (n : Nat) : Text → Nat × Nat × Nat
  | [] => (n, 0, 0)
  | c :: cs =>
    let m := 10 * n + digitValue c
    if Nat.pow 2 64 ≤ m then (n, 0, (c :: cs).length)
    else
      let (k, taken, dropped) := extendSignificand m cs
      (k, taken + 1, dropped)

/-- Divides by a power of ten in steps of at most `10 ^ 308`, each of them rounded. -/
def divideByTens (x : Binary64) (n : Nat) : Option Binary64 :=
  if n ≤ 308 then (Binary64.tenPow? n).bind x.div?
  else if x.isZero then some x
  else ((Binary64.tenPow? 308).bind x.div?).bind fun y => divideByTens y (n - 308)
termination_by n
decreasing_by omega

/-- A significand of 64 bits times a power of ten: it is rounded, and so is each step of scaling.
There is no result when the number is too large. -/
def scaled? (negative : Bool) (significand : Nat) (exponent : Int) : Option Binary64 := do
  let x ← Binary64.ofNat? significand
  let y ←
    if exponent < 0 then divideByTens x (-exponent).toNat
    else if exponent ≤ 308 then (Binary64.tenPow? exponent.toNat).bind x.mul?
    else if x.isZero then some x
    else none
  return if negative then y.negate else y

/-- The fraction after a point, if there is one; a point needs a digit after it. -/
def fraction? : Text → Option (Option Text × Text)
  | '.' :: cs =>
    let (ds, rest) := digits cs
    if ds.isEmpty then none else some (some ds, rest)
  | cs => some (none, cs)

/-- The exponent after its letter, if there is one; it needs a digit. -/
def exponent? : Text → Option (Option Int × Text)
  | c :: cs =>
    if c = 'e' ∨ c = 'E' then
      let (negative, rest) : Bool × Text := match cs with
        | '-' :: r => (true, r)
        | '+' :: r => (false, r)
        | r => (false, r)
      let (ds, rest) := digits rest
      if ds.isEmpty then none
      else
        let n : Int := natOfDigits ds
        some (some (if negative then -n else n), rest)
    else some (none, c :: cs)
  | [] => some (none, [])

def numberValue? (negative : Bool) (whole : Text) (fraction : Option Text) (exponent : Option Int) :
    Option Json :=
  let (n, _, dropped) := extendSignificand 0 whole
  match fraction, exponent with
  | none, none =>
    if dropped = 0 then
      if negative then
        if n = 0 then some (float (Binary64.zero true))
        else if n ≤ Nat.pow 2 63 then some (int (-(n : Int)))
        else (scaled? true n 0).map float
      else some (int n)
    else (scaled? negative n dropped).map float
  | _, _ =>
    let (m, taken, _) := extendSignificand n (fraction.getD [])
    (scaled? negative m ((dropped : Int) - taken + exponent.getD 0)).map float

/-- Reads the parts of a number whose sign is gone: the whole part, the fraction and the
exponent. -/
def numberParts : Reader (Text × Option Text × Option Int) := fun t => do
  let (whole, rest) := digits t
  if whole.isEmpty ∨ (1 < whole.length ∧ whole.head? = some '0') then none
  else
    let (fraction, rest) ← fraction? rest
    let (exponent, rest) ← exponent? rest
    return ((whole, fraction, exponent), rest)

def number (negative : Bool) : Reader Json := fun t => do
  let ((whole, fraction, exponent), rest) ← numberParts t
  let v ← numberValue? negative whole fraction exponent
  return (v, rest)

def scalar : Reader Json
  | 'n' :: 'u' :: 'l' :: 'l' :: cs => some (null, cs)
  | 't' :: 'r' :: 'u' :: 'e' :: cs => some (bool true, cs)
  | 'f' :: 'a' :: 'l' :: 's' :: 'e' :: cs => some (bool false, cs)
  | '"' :: cs => (stringFrom .plain cs).map fun p => (str p.1, p.2)
  | '-' :: cs => number true cs
  | cs => number false cs

/-- Reads one or more items with commas between them up to the closing bracket.  The first argument
bounds the number of items. -/
def items {α : Type} (item : Reader α) : Nat → Reader (List α)
  | 0, _ => none
  | n + 1, t => do
    let (v, rest) ← item t
    match skipSpace rest with
    | ',' :: cs =>
      let (vs, rest) ← items item n cs
      return (v :: vs, rest)
    | ']' :: cs => return ([v], cs)
    | _ => none

def memberName : Reader Text := fun t =>
  match skipSpace t with
  | '"' :: cs => do
    let (name, rest) ← stringFrom .plain cs
    match skipSpace rest with
    | ':' :: cs => return (name, cs)
    | _ => none
  | _ => none

/-- Reads one or more members with commas between them up to the closing brace, each value by a
reader that may depend on the name. -/
def members {α : Type} (value : Text → Reader α) : Nat → Reader (List (Text × α))
  | 0, _ => none
  | n + 1, t => do
    let (name, rest) ← memberName t
    let (v, rest) ← value name rest
    match skipSpace rest with
    | ',' :: cs =>
      let (ms, rest) ← members value n cs
      return ((name, v) :: ms, rest)
    | '\x7d' :: cs => return ([(name, v)], cs)
    | _ => none

def arrayFrom {α : Type} (item : Reader α) : Reader (List α) := fun t =>
  match skipSpace t with
  | ']' :: cs => some ([], cs)
  | cs => items item cs.length cs

def objectFrom {α : Type} (value : Text → Reader α) : Reader (List (Text × α)) := fun t =>
  match skipSpace t with
  | '\x7d' :: cs => some ([], cs)
  | cs => members value cs.length cs

/-- Reads a value with at most `depth` arrays and objects inside each other. -/
def value : Nat → Reader Json
  | 0, t => scalar (skipSpace t)
  | depth + 1, t =>
    match skipSpace t with
    | '[' :: cs => (arrayFrom (value depth) cs).map fun p => (arr p.1, p.2)
    | '\x7b' :: cs => (objectFrom (fun _ => value depth) cs).map fun p => (ofMembers p.1, p.2)
    | cs => scalar cs

def maxDepth : Nat := 127

/-- Reads a whole text by a reader after which only blanks may follow. -/
def whole? {α : Type} (read : Reader α) (t : Text) : Option α :=
  match read t with
  | some (v, rest) => if (skipSpace rest).isEmpty then some v else none
  | none => none

def parse? (t : Text) : Option Json := whole? (value maxDepth) t

/-- The value that a text denotes; a text that denotes none stands for itself. -/
def parseOrText (t : Text) : Json := (parse? t).getD (str t)

end Json

/-! ### Values whose content does not matter
Only the grammar counts here: numbers may be out of range, units of surrogate pairs may be alone,
and values may be nested as deep as they like. -/

namespace Json

/-- Passes over the rest of a string.  `pending` counts the digits of a code unit that have to
follow. -/
def skipString (escaped : Bool) (pending : Nat) : Text → Option Text
  | [] => none
  | c :: cs =>
    match pending with
    | n + 1 => if (hexValue? c).isSome then skipString false n cs else none
    | 0 =>
      if escaped then
        if c = 'u' then skipString false 4 cs
        else if (shortEscape? c).isSome then skipString false 0 cs
        else none
      else if c = '"' then some cs
      else if c = '\\' then skipString true 0 cs
      else if c.toNat < 32 then none
      else skipString false 0 cs

def skipScalar : Reader Unit
  | 'n' :: 'u' :: 'l' :: 'l' :: cs => some ((), cs)
  | 't' :: 'r' :: 'u' :: 'e' :: cs => some ((), cs)
  | 'f' :: 'a' :: 'l' :: 's' :: 'e' :: cs => some ((), cs)
  | '"' :: cs => (skipString false 0 cs).map fun rest => ((), rest)
  | '-' :: cs => (numberParts cs).map fun p => ((), p.2)
  | cs => (numberParts cs).map fun p => ((), p.2)

def skipName : Reader Unit := fun t =>
  match skipSpace t with
  | '"' :: cs => do
    let rest ← skipString false 0 cs
    match skipSpace rest with
    | ':' :: cs => return ((), cs)
    | _ => none
  | _ => none

def skipMembers (value : Reader Unit) : Nat → Reader Unit
  | 0, _ => none
  | n + 1, t => do
    let (_, rest) ← skipName t
    let (_, rest) ← value rest
    match skipSpace rest with
    | ',' :: cs => skipMembers value n cs
    | '\x7d' :: cs => return ((), cs)
    | _ => none

/-- Passes over a value with at most `depth` arrays and objects inside each other. -/
def skipValue : Nat → Reader Unit
  | 0, t => skipScalar (skipSpace t)
  | depth + 1, t =>
    match skipSpace t with
    | '[' :: cs => (arrayFrom (skipValue depth) cs).map fun p => ((), p.2)
    | '\x7b' :: cs =>
      match skipSpace cs with
      | '\x7d' :: cs => some ((), cs)
      | cs => skipMembers (skipValue depth) cs.length cs
    | cs => skipScalar cs

/-- Passes over any value: it cannot be nested deeper than its text is long. -/
def skip : Reader Unit := fun t => skipValue t.length t

end Json

end ManifestShell
