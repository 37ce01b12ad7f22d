import Dataflow.Number.Binary

/-!
# Shortest decimal digits

The fewest decimal digits of which a given finite number of a binary format is the nearest one, and
of those the nearest to it. The reals whose nearest number is `m · 2 ^ q` fill an interval around
it: it reaches half a step up and down (a quarter step down at the start of a binade) and holds its
ends exactly when `m` is even. For one digit, two, and so on, the two neighbours of the number on the
grid of that many digits are tried; the first grid with a hit wins, of two hits the nearer one,
and of two equally near the even one.
-/

namespace Dataflow

/-- A positive decimal `digits · 10 ^ exponent`. -/
structure Decimal where
  digits : Nat
  exponent : Int
deriving DecidableEq, Inhabited

namespace Decimal

/-- Drops zeros at the end of the digits, at most `fuel` of them. -/
def strip : (fuel : Nat) → Decimal → Decimal
  | 0, d => d
  | fuel + 1, d =>
    if d.digits ≠ 0 ∧ d.digits % 10 = 0 then strip fuel ⟨d.digits / 10, d.exponent + 1⟩ else d

/-- A fraction brought to the unit `10 ^ g`: the quotient of the result counts steps of the
grid. -/
def onGrid (n d : Nat) (g : Int) : Nat × Nat :=
  if 0 ≤ g then (n, d * Nat.pow 10 g.toNat) else (n * Nat.pow 10 (-g).toNat, d)

/-- The exponent `e` with `10 ^ e ≤ n / d < 10 ^ (e + 1)`, for positive `n` and `d`. -/
def floorLog10 (n d : Nat) : Int :=
  if d ≤ n then (Nat.toDigits 10 (n / d)).length - 1
  else -(Nat.toDigits 10 ((d - 1) / n)).length

end Decimal

namespace BinaryFormat

variable (fmt : BinaryFormat)

/-- The reals that are rounded to one magnitude, in units of `2 ^ exponent`. -/
structure Interval where
  low : Nat
  value : Nat
  high : Nat
  exponent : Int
  closed : Bool

def interval (magnitude : Nat) : Interval :=
  let (m, q) := fmt.decode magnitude
  let atStart := m = fmt.binade ∧ fmt.lowest < q
  ⟨4 * m - (if atStart then 1 else 2), 4 * m, 4 * m + 2, q - 2, m % 2 = 0⟩

/-- The neighbour of the interval's value on the grid of `10 ^ g` that is rounded to it, if there is
one. -/
def Interval.hit? (i : Interval) (g : Int) : Option Nat :=
  let (unit, d) := scale 1 1 (-i.exponent)
  let (unit, d) := Decimal.onGrid unit d g
  let within (k : Nat) : Bool :=
    if i.closed then i.low * unit ≤ k * d ∧ k * d ≤ i.high * unit
    else i.low * unit < k * d ∧ k * d < i.high * unit
  let k := i.value * unit / d
  let below := i.value * unit - k * d
  let above := (k + 1) * d - i.value * unit
  match within k, within (k + 1) with
  | true, true => if below < above ∨ (below = above ∧ k % 2 = 0) then some k else some (k + 1)
  | true, false => some k
  | false, true => some (k + 1)
  | false, false => none

def shortest (magnitude : Nat) : Decimal :=
  let (m, q) := fmt.decode magnitude
  let (n, d) := scale m 1 (-q)
  let e := Decimal.floorLog10 n d
  let i := fmt.interval magnitude
  let found := (List.range 17).findSome? fun (count : Nat) =>
    let g := e - count
    (i.hit? g).map fun k => Decimal.mk k g
  (found.getD ⟨0, 0⟩).strip 17

end BinaryFormat

end Dataflow
