import ManifestShell.Toml.Basic
import ManifestShell.Toml.Quoted

/-! TOML values without parts that are written without quotes: truth values, numbers, dates and
times.  Each reader here takes the whole of what is written. -/
namespace ManifestShell.Toml

/-- Digits, of which any two neighbours may have one underscore between them. -/
def ungroup? (isDigit : Char → Bool) : Text → Option Text
  | [] => none
  | [c] => if isDigit c then some [c] else none
  | c :: '_' :: cs => if isDigit c then (ungroup? isDigit cs).map (c :: ·) else none
  | c :: cs => if isDigit c then (ungroup? isDigit cs).map (c :: ·) else none

def natOfDigits (base : Nat) (ds : Text) : Nat :=
  ds.foldl (fun n c => base * n + (Json.hexValue? c).getD 0) 0

def isDigitBelow (base : Nat) (c : Char) : Bool := (Json.hexValue? c).any (· < base)

/-- The digits of a decimal number, which does not start with a needless zero. -/
def decimalDigits? (t : Text) : Option Text :=
  (ungroup? (isDigitBelow 10) t).filter fun ds => ds.length ≤ 1 || ds.head? != some '0'

def signed : Text → Bool × Text
  | '-' :: cs => (true, cs)
  | '+' :: cs => (false, cs)
  | cs => (false, cs)

def withSign (negative : Bool) (n : Nat) : Int := if negative then -(n : Int) else n

/-- An integer: decimal with an optional sign, or without sign in base 16, 8 or 2. -/
def integer? : Text → Option Int
  | '0' :: 'x' :: cs => (ungroup? (isDigitBelow 16) cs).map fun ds => natOfDigits 16 ds
  | '0' :: 'o' :: cs => (ungroup? (isDigitBelow 8) cs).map fun ds => natOfDigits 8 ds
  | '0' :: 'b' :: cs => (ungroup? (isDigitBelow 2) cs).map fun ds => natOfDigits 2 ds
  | t => (decimalDigits? (signed t).2).map fun ds => withSign (signed t).1 (natOfDigits 10 ds)

/-- From here on numbers are rounded to infinity. -/
def floatLimit : Nat := (Nat.pow 2 54 - 1) * Nat.pow 2 970

def belowLimit (ds : Text) (exponent : Int) : Bool :=
  let n := natOfDigits 10 ds
  if n = 0 then true
  else if 0 ≤ exponent then exponent ≤ 308 && n * Nat.pow 10 exponent.toNat < floatLimit
  else ds.length ≤ (-exponent).toNat || n < floatLimit * Nat.pow 10 (-exponent).toNat

def exponentPart? (t : Text) : Option Int :=
  (ungroup? (isDigitBelow 10) (signed t).2).map fun ds =>
    withSign (signed t).1 (natOfDigits 10 ds)

def isExponentLetter (c : Char) : Bool := c == 'e' || c == 'E'

/-- A number with a fraction, an exponent or both; says whether it is in range. -/
def finiteFloat? (t : Text) : Option Bool := do
  let mantissa := t.takeWhile fun c => !isExponentLetter c
  let exponent ← match t.dropWhile fun c => !isExponentLetter c with
    | [] => some none
    | _ :: cs => (exponentPart? cs).map some
  let whole ← decimalDigits? (mantissa.takeWhile (· != '.'))
  let fraction ← match mantissa.dropWhile (· != '.') with
    | [] => some none
    | _ :: cs => (ungroup? (isDigitBelow 10) cs).map some
  if fraction.isNone ∧ exponent.isNone then none
  else
    let places := (fraction.getD []).length
    return belowLimit (whole ++ fraction.getD []) (exponent.getD 0 - places)

def float? (t : Text) : Option Bool :=
  let t := (signed t).2
  if t = "inf".toList ∨ t = "nan".toList then some true else finiteFloat? t

/-- Reads a number of exactly so many digits, within bounds. -/
def fixed? (count low high : Nat) (t : Text) : Option (Nat × Text) :=
  let ds := t.take count
  let n := natOfDigits 10 ds
  if ds.length = count ∧ ds.all (isDigitBelow 10) ∧ low ≤ n ∧ n ≤ high then
    some (n, t.drop count)
  else none

def isLeapYear (year : Nat) : Bool := year % 4 == 0 && (year % 100 != 0 || year % 400 == 0)

def daysOf (year month : Nat) : Nat :=
  if month = 2 then if isLeapYear year then 29 else 28
  else if month ∈ [4, 6, 9, 11] then 30
  else 31

def afterDate? (t : Text) : Option Text := do
  let (year, t) ← fixed? 4 0 9999 t
  let (month, t) ← fixed? 2 1 12 (← Text.dropStart? ['-'] t)
  let (_, t) ← fixed? 2 1 (daysOf year month) (← Text.dropStart? ['-'] t)
  return t

/-- What follows a time at the start of a text; seconds and their fraction may be left out. -/
def afterTime? (t : Text) : Option Text := do
  let (_, t) ← fixed? 2 0 23 t
  let (_, t) ← fixed? 2 0 59 (← Text.dropStart? [':'] t)
  match t with
  | ':' :: t =>
    let (_, t) ← fixed? 2 0 60 t
    match t with
    | '.' :: t =>
      if (t.takeWhile (isDigitBelow 10)).isEmpty then none
      else return t.dropWhile (isDigitBelow 10)
    | t => return t
  | t => return t

def isOffset : Text → Bool
  | [] | ['Z'] | ['z'] => true
  | c :: t =>
    (c == '+' || c == '-') &&
      match fixed? 2 0 23 t with
      | some (_, ':' :: t) => (fixed? 2 0 59 t).any fun p => p.2.isEmpty
      | _ => false

/-- Whether a text is a date, a time, or both with an optional offset. -/
def isDatetime (t : Text) : Bool :=
  match afterDate? t with
  | some [] => true
  | some (c :: cs) => (c == 'T' || c == 't' || c == ' ') && (afterTime? cs).any isOffset
  | none => (afterTime? t).any List.isEmpty

def unquoted? (t : Text) : Option Toml :=
  if t = "true".toList then some (bool true)
  else if t = "false".toList then some (bool false)
  else
    match integer? t, float? t with
    | some i, _ => some (int i)
    | none, some inRange => some (float inRange)
    | none, none => if isDatetime t then some datetime else none

end ManifestShell.Toml
