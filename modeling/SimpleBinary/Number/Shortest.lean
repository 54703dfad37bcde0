import SimpleBinary.Number.Binary64

/-!
The shortest decimal that reads back as a double, and its spelling. A decimal reads back when it
lies in the interval of numbers that round to the double. The grids of `n` significant digits are
tried for `n` from 1 to 17; of a grid only the two neighbours of the double can be nearest.
-/

namespace SimpleBinary

open scoped Power

/-- The number `0.d₁d₂… * 10 ^ point` with the digits `d₁ d₂ …`, the first and last not zero. -/
structure Decimal where
  digits : List Char
  point : Int
  deriving DecidableEq, Repr

inductive Tie where
  | even
  | up
  deriving DecidableEq, Repr

structure DecimalStyle where
  leastPoint : Int
  greatestPoint : Int
  plus : List Char
  tie : Tie
  deriving DecidableEq, Repr

namespace Decimal

def digitsOf (n : Nat) : List Char :=
  Nat.toDigits 10 n

def pointOf (num den : Nat) : Int :=
  if den ≤ num then (digitsOf (num / den)).length
  else 1 - (digitsOf ((den - 1) / num)).length

/-- The nearer neighbour of `value` on the grid of steps of `unit`, of those in the interval. -/
def onGrid (tie : Tie) (closed : Bool) (low value high unit : Nat) : Option Nat :=
  let inside (n : Nat) : Bool :=
    if closed then low ≤ n && n ≤ high else low < n && n < high
  let below := value / unit
  let above := below + 1
  let down := value - below * unit
  let up := above * unit - value
  match inside (below * unit), inside (above * unit) with
  | false, false => none
  | true, false => some below
  | false, true => some above
  | true, true =>
    if down < up then some below
    else if up < down then some above
    else match tie with
      | .up => some above
      | .even => if below % 2 = 0 then some below else some above

def ofNat (n : Nat) (power : Int) : Decimal :=
  let digits := digitsOf n
  ⟨(digits.reverse.dropWhile (· == '0')).reverse, digits.length + power⟩

def stepFactors (power : Int) : Nat × Nat :=
  if 0 ≤ power then (1, 10 ^ power.toNat) else (10 ^ (-power).toNat, 1)

def shortest (tie : Tie) (significand : Nat) (exponent : Int) : Decimal :=
  let format := FloatFormat.binary64
  -- An end of the interval rounds to the double if the significand is even.
  let closed := significand % 2 == 0
  -- Below a power of two the doubles lie twice as close.
  let narrow := significand == 2 ^ format.fractionBits && format.minExponent < exponent
  let (num, den) := Ratio.scale 1 1 (exponent - 2)
  let value := 4 * significand * num
  let low := (4 * significand - if narrow then 1 else 2) * num
  let high := (4 * significand + 2) * num
  let point := pointOf value den
  let candidate? (digits : Nat) : Option Decimal :=
    let power := point - digits
    let (factor, step) := stepFactors power
    (onGrid tie closed (low * factor) (value * factor) (high * factor) (den * step)).map
      (ofNat · power)
  ((List.range 17).findSome? fun n => candidate? (n + 1)).getD (ofNat value 0)

def spell (style : DecimalStyle) (d : Decimal) : List Char :=
  let count : Int := d.digits.length
  let zeros (n : Int) : List Char := List.replicate n.toNat '0'
  if style.leastPoint ≤ d.point ∧ d.point ≤ style.greatestPoint then
    if d.point ≤ 0 then '0' :: '.' :: zeros (-d.point) ++ d.digits
    else if count ≤ d.point then d.digits ++ zeros (d.point - count) ++ ['.', '0']
    else d.digits.take d.point.toNat ++ '.' :: d.digits.drop d.point.toNat
  else
    let mantissa := match d.digits with
      | first :: second :: rest => first :: '.' :: second :: rest
      | digits => digits
    let power := d.point - 1
    mantissa ++ 'e' :: (if power < 0 then ['-'] else style.plus) ++ digitsOf power.natAbs

end Decimal

def Binary64.spellFinite (style : DecimalStyle) (negative : Bool) (significand : Nat)
    (exponent : Int) : String :=
  let magnitude :=
    if significand = 0 then ['0', '.', '0']
    else (Decimal.shortest style.tie significand exponent).spell style
  String.ofList (if negative then '-' :: magnitude else magnitude)

end SimpleBinary
