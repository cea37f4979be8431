-- Binary floating-point numbers of 64 bits in exact arithmetic: how a decimal rounds to one, and the shortest decimal that
-- rounds back. A finite number is `mantissa * 2 ^ exponent` with a mantissa below `2 ^ 53`, the largest that fits.

namespace ParenTree

inductive Binary64
  | finite (negative : Bool) (mantissa : Nat) (exponent : Int)
  | infinite (negative : Bool)
deriving DecidableEq, Repr

namespace Binary64

def minExponent : Int := -1074

def maxExponent : Int := 971

def roundQuotient (num den : Nat) : Nat :=
  let q := num / den
  let r := num % den
  if 2 * r < den then q
  else if den < 2 * r then q + 1
  else q + q % 2

def shifted (num den : Nat) (e : Int) : Nat × Nat :=
  (num * Nat.pow 2 e.toNat, den * Nat.pow 2 (-e).toNat)

def leadingBit (num den : Nat) : Int :=
  let e : Int := (Nat.log2 num : Int) - Nat.log2 den
  let (n, d) := shifted num den (-e)
  if d ≤ n then e else e - 1

def ofQuotient (negative : Bool) (num den : Nat) : Binary64 :=
  if num = 0 then finite negative 0 minExponent
  else
    let exponent := max (leadingBit num den - 52) minExponent
    let (n, d) := shifted num den (-exponent)
    let mantissa := roundQuotient n d
    let (mantissa, exponent) := if mantissa = Nat.pow 2 53 then (Nat.pow 2 52, exponent + 1) else (mantissa, exponent)
    if maxExponent < exponent then infinite negative else finite negative mantissa exponent

-- The number nearest to `digits * 10 ^ exponent`. A decimal with a digit beyond `10 ^ 400` is infinite and one that ends
-- before `10 ^ (-400)` is nothing, so powers stay small.
def ofDecimal (negative : Bool) (digits : Nat) (exponent : Int) : Binary64 :=
  let top : Int := (Nat.toDigits 10 digits).length + exponent
  if digits = 0 || top < -400 then finite negative 0 minExponent
  else if 400 < top then infinite negative
  else ofQuotient negative (digits * Nat.pow 10 exponent.toNat) (Nat.pow 10 (-exponent).toNat)

structure Decimal where
  digits : List Char
  point : Int
deriving DecidableEq, Repr

namespace Decimal

def dropTrailingZeros (cs : List Char) : List Char :=
  (cs.reverse.dropWhile (· = '0')).reverse

def ofScaled (n : Nat) (exponent : Int) : Decimal :=
  let digits := Nat.toDigits 10 n
  ⟨dropTrailingZeros digits, digits.length + exponent⟩

end Decimal

-- The numbers that round to a given one: from `low` to `high` over `den`, with `value` in between. The ends belong to it if
-- `closed`.
structure Neighbourhood where
  low : Nat
  value : Nat
  high : Nat
  den : Nat
  closed : Bool

-- Half a step each way; below the smallest mantissa of a binade the steps are half as large.
def neighbourhood (mantissa : Nat) (exponent : Int) : Neighbourhood :=
  let unit := Nat.pow 2 (exponent - 2).toNat
  let below := if mantissa = Nat.pow 2 52 && minExponent < exponent then 1 else 2
  ⟨(4 * mantissa - below) * unit, 4 * mantissa * unit, (4 * mantissa + 2) * unit, Nat.pow 2 (2 - exponent).toNat,
    mantissa % 2 == 0⟩

namespace Neighbourhood

def point (b : Neighbourhood) : Int :=
  if b.den ≤ b.value then (Nat.toDigits 10 (b.value / b.den)).length
  else
    match (List.range 400).find? fun zeros => b.den ≤ b.value * Nat.pow 10 zeros with
    | some zeros => 1 - zeros
    | none => 0

def decimal? (b : Neighbourhood) (count : Nat) : Option Decimal :=
  let exponent := b.point - count
  let up := Nat.pow 10 exponent.toNat
  let down := Nat.pow 10 (-exponent).toNat
  let unit := b.den * up
  let value := b.value * down
  let inside (n : Nat) : Bool :=
    if b.closed then b.low * down ≤ n * unit && n * unit ≤ b.high * down
    else b.low * down < n * unit && n * unit < b.high * down
  let below := value / unit
  let nearest := roundQuotient value unit
  let other := if nearest = below then below + 1 else below
  if inside nearest then some (.ofScaled nearest exponent)
  else if inside other then some (.ofScaled other exponent)
  else none

def shortest (b : Neighbourhood) : Decimal :=
  match (List.range 17).findSome? fun n => b.decimal? (n + 1) with
  | some d => d
  | none => .ofScaled (b.value / b.den) 0

end Neighbourhood

structure Format where
  -- Points up to here are written, further ones as an exponent.
  maxPoint : Int
  -- Points above here are written, earlier ones as an exponent.
  minPoint : Int
  exponentWidth : Nat

namespace Format

def exponent (f : Format) (e : Int) : List Char :=
  let digits := Nat.toDigits 10 e.natAbs
  'e' :: (if e < 0 then '-' else '+') :: (List.replicate (f.exponentWidth - digits.length) '0' ++ digits)

def write (f : Format) (d : Decimal) : List Char :=
  if f.minPoint < d.point && d.point ≤ f.maxPoint then
    if d.point ≤ 0 then '0' :: '.' :: (List.replicate (-d.point).toNat '0' ++ d.digits)
    else
      let whole := d.digits.take d.point.toNat
      let zeros := List.replicate (d.point.toNat - whole.length) '0'
      let part := d.digits.drop d.point.toNat
      whole ++ zeros ++ '.' :: (if part.isEmpty then ['0'] else part)
  else
    match d.digits with
    | [] => ['0']
    | first :: part =>
      first :: (if part.isEmpty then [] else '.' :: part) ++ f.exponent (d.point - 1)

end Format

def format : Format := ⟨16, -4, 2⟩

def sign (negative : Bool) : List Char :=
  if negative then ['-'] else []

def text : Binary64 → String
  | infinite negative => .ofList (sign negative ++ "inf".toList)
  | finite negative mantissa exponent =>
    let digits :=
      if mantissa = 0 then "0.0".toList else format.write (neighbourhood mantissa exponent).shortest
    .ofList (sign negative ++ digits)

def isZero : Binary64 → Bool
  | finite _ 0 _ => true
  | _ => false

def same (x y : Binary64) : Bool :=
  x = y || (x.isZero && y.isZero)

def isInt (x : Binary64) (n : Int) : Bool :=
  match x with
  | infinite _ => false
  | finite negative mantissa exponent =>
    mantissa * Nat.pow 2 exponent.toNat = n.natAbs * Nat.pow 2 (-exponent).toNat && (mantissa = 0 || negative = decide (n < 0))

end Binary64
end ParenTree
