import ManifestShell.Text.Basic

/-! Finite binary floating point numbers of double precision, as exact triples.
A number is `mantissa * 2 ^ exponent` with a sign.  All arithmetic goes through exact quotients of
natural numbers and one rounding, to the nearest representable number and to the even one of two. -/
namespace ManifestShell

structure Binary64 where
  negative : Bool
  mantissa : Nat
  exponent : Int
  deriving DecidableEq, Repr

namespace Binary64

def precision : Nat := 53
def minExponent : Int := -1074
def maxExponent : Int := 971

def zero (negative : Bool) : Binary64 := ⟨negative, 0, minExponent⟩

def isZero (x : Binary64) : Bool := x.mantissa == 0

def negate (x : Binary64) : Binary64 := { x with negative := !x.negative }

def ratio (x : Binary64) : Nat × Nat :=
  if 0 ≤ x.exponent then (x.mantissa * Nat.pow 2 x.exponent.toNat, 1)
  else (x.mantissa, Nat.pow 2 (-x.exponent).toNat)

/-- The quotient rounded to a whole number, a half to the even neighbour. -/
def divideToEven (num den : Nat) : Nat :=
  let q := num / den
  let r := num % den
  if 2 * r < den then q
  else if den < 2 * r then q + 1
  else if q % 2 = 0 then q else q + 1

/-- The number of the given sign nearest to `num / den`, or nothing if that is beyond the
largest. -/
def round? (negative : Bool) (num den : Nat) : Option Binary64 :=
  if num = 0 then some (zero negative)
  else
    let guess : Int := (num.log2 : Int) - den.log2 - 52
    let scaled (e : Int) : Nat × Nat :=
      if 0 ≤ e then (num, den * Nat.pow 2 e.toNat) else (num * Nat.pow 2 (-e).toNat, den)
    let reaches (e : Int) : Bool := (scaled e).2 * Nat.pow 2 52 ≤ (scaled e).1
    let e := max (if reaches guess then guess else guess - 1) minExponent
    let m := divideToEven (scaled e).1 (scaled e).2
    let carried := if m = Nat.pow 2 precision then (Nat.pow 2 52, e + 1) else (m, e)
    if maxExponent < carried.2 then none else some ⟨negative, carried.1, carried.2⟩

def ofNat? (n : Nat) : Option Binary64 := round? false n 1

def tenPow? (n : Nat) : Option Binary64 := round? false (Nat.pow 10 n) 1

def mul? (x y : Binary64) : Option Binary64 :=
  let (a, b) := x.ratio
  let (c, d) := y.ratio
  round? (x.negative != y.negative) (a * c) (b * d)

def div? (x y : Binary64) : Option Binary64 :=
  let (a, b) := x.ratio
  let (c, d) := y.ratio
  if c = 0 then none else round? (x.negative != y.negative) (a * d) (b * c)

end Binary64

/-! ### The fewest decimal digits that read back as a number -/

/-- The digits of a positive number, of which the first stands for a multiple of
`10 ^ exponent`. -/
structure Decimal where
  digits : Text
  exponent : Int
  deriving DecidableEq, Repr

namespace Binary64

/-- The exponent of the leading decimal digit of `num / den`. -/
def leadingExponent (num den : Nat) : Int :=
  if den ≤ num then ((Nat.toDigits 10 (num / den)).length : Int) - 1
  else -((Nat.toDigits 10 ((den + num - 1) / num - 1)).length : Int)

/-- The multiples of `10 ^ unit` next to `num / den`, from below and above. -/
def gridNeighbours (num den : Nat) (unit : Int) : Nat × Nat :=
  let d :=
    if 0 ≤ unit then num / (den * Nat.pow 10 unit.toNat)
    else num * Nat.pow 10 (-unit).toNat / den
  (d, d + 1)

/-- The shortest decimal in the interval of numbers that round to `x`, and of several the one
nearest to `x`.  The interval has its ends iff the mantissa is even. -/
def shortest (x : Binary64) : Decimal :=
  let e := x.exponent - 2
  let scale := if 0 ≤ e then Nat.pow 2 e.toNat else 1
  let den := if 0 ≤ e then 1 else Nat.pow 2 (-e).toNat
  let value := 4 * x.mantissa * scale
  let low :=
    if x.mantissa = Nat.pow 2 52 ∧ minExponent < x.exponent then (4 * x.mantissa - 1) * scale
    else (4 * x.mantissa - 2) * scale
  let high := (4 * x.mantissa + 2) * scale
  let closed := x.mantissa % 2 = 0
  let lead := leadingExponent value den
  -- compare `d * 10 ^ unit` with `n / den`
  let side (d : Nat) (unit : Int) (n : Nat) : Int :=
    let a := if 0 ≤ unit then d * Nat.pow 10 unit.toNat * den else d * den
    let b := if 0 ≤ unit then n else n * Nat.pow 10 (-unit).toNat
    (a : Int) - b
  let inside (d : Nat) (unit : Int) : Bool :=
    if closed then 0 ≤ side d unit low && side d unit high ≤ 0
    else 0 < side d unit low && side d unit high < 0
  let attempt (count : Nat) : Option (Nat × Int) :=
    let unit := lead + 1 - count
    let (d, d') := gridNeighbours value den unit
    match inside d unit, inside d' unit with
    | false, false => none
    | true, false => some (d, unit)
    | false, true => some (d', unit)
    | true, true =>
      let below := -side d unit value
      let above := side d' unit value
      if below < above then some (d, unit)
      else if above < below then some (d', unit)
      else some (if d % 2 = 0 then d else d', unit)
  match (List.range 17).findSome? fun i => attempt (i + 1) with
  | none => ⟨['0'], 0⟩
  | some (d, unit) =>
    let ds := Nat.toDigits 10 d
    let kept := (ds.reverse.dropWhile (· == '0')).reverse
    ⟨kept, unit + ds.length - 1⟩

end Binary64

/-- Which leading exponents are written positionally; beyond them the exponent is written. -/
structure FloatLayout where
  positionalFrom : Int
  positionalTo : Int

namespace FloatLayout

def intText (i : Int) : Text :=
  if i < 0 then '-' :: Text.ofNat i.natAbs else Text.ofNat i.natAbs

def positional (d : Decimal) : Text :=
  if d.exponent < 0 then
    "0.".toList ++ List.replicate ((-d.exponent).toNat - 1) '0' ++ d.digits
  else
    let whole := d.exponent.toNat + 1
    let digits := d.digits ++ List.replicate (whole - d.digits.length) '0'
    let fraction := digits.drop whole
    digits.take whole ++ '.' :: (if fraction.isEmpty then ['0'] else fraction)

/-- One digit before the point; the exponent carries its sign and no leading zeros. -/
def scientific (d : Decimal) : Text :=
  let mantissa := match d.digits with
    | [] => ['0']
    | [c] => [c]
    | c :: cs => c :: '.' :: cs
  mantissa ++ 'e' :: (if d.exponent < 0 then intText d.exponent else '+' :: intText d.exponent)

def render (layout : FloatLayout) (x : Binary64) : Text :=
  let magnitude : Text :=
    if x.isZero then "0.0".toList
    else
      let d := x.shortest
      if layout.positionalFrom ≤ d.exponent ∧ d.exponent ≤ layout.positionalTo then positional d
      else scientific d
  if x.negative then '-' :: magnitude else magnitude

end FloatLayout

end ManifestShell
