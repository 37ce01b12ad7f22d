/-!
# Binary floating point

Single and double precision numbers as their bit patterns, so that a NaN keeps its payload while
it is only stored. Arithmetic is done in single precision by the machine's own operations. A
`BinaryFormat` gives the two sizes a common description, over which rationals are rounded to the
nearest number of the format, ties to the even neighbour.

Without its sign, a number is a *magnitude*: the natural number that its remaining bits spell.
Magnitudes are in the order of the values they stand for, those of one binade follow each other,
and the one after the largest finite number is infinity.
-/

namespace Dataflow

structure Single where
  bits : UInt32
deriving DecidableEq, Inhabited

structure Double where
  bits : UInt64
deriving DecidableEq, Inhabited

structure BinaryFormat where
  /-- Significant bits, the leading one included. -/
  precision : Nat
  /-- The exponent of the last bit of the smallest numbers. -/
  lowest : Int
  /-- How many values the exponent field has for finite numbers. -/
  exponents : Nat
deriving DecidableEq

namespace BinaryFormat

def single : BinaryFormat := ⟨24, -149, 255⟩

def double : BinaryFormat := ⟨53, -1074, 2047⟩

variable (fmt : BinaryFormat)

/-- How many magnitudes one value of the exponent field covers. -/
def binade : Nat := Nat.pow 2 (fmt.precision - 1)

/-- The magnitude of infinity; the larger ones are NaNs. -/
def infinity : Nat := fmt.exponents * fmt.binade

def decode (magnitude : Nat) : Nat × Int :=
  let field := magnitude / fmt.binade
  let rest := magnitude % fmt.binade
  if field = 0 then (rest, fmt.lowest)
  else (rest + fmt.binade, fmt.lowest + (field - 1 : Int))

/-- The nearest integer to `n / d`, the even one of two. -/
def roundHalfEven (n d : Nat) : Nat :=
  let q := n / d
  let r := n % d
  if 2 * r < d then q else if d < 2 * r then q + 1 else q + q % 2

/-- `n / d · 2 ^ (-e)` as a fraction. -/
def scale (n d : Nat) (e : Int) : Nat × Nat :=
  if 0 ≤ e then (n, d * Nat.pow 2 e.toNat) else (n * Nat.pow 2 (-e).toNat, d)

/-- The exponent `l` with `2 ^ l ≤ n / d < 2 ^ (l + 1)`, for positive `n` and `d`. -/
def floorLog2 (n d : Nat) : Int :=
  let l : Int := n.log2 - d.log2
  let (n', d') := scale n d l
  if d' ≤ n' then l else l - 1

/-- The magnitude nearest to `n / d`; infinity from half a step above the largest number on. -/
def round (n d : Nat) : Nat :=
  if n = 0 then 0
  else
    let q := max fmt.lowest (floorLog2 n d - (fmt.precision - 1 : Nat))
    let (n', d') := scale n d q
    min fmt.infinity ((q - fmt.lowest).toNat * fmt.binade + roundHalfEven n' d')

def mul (a b : Nat) : Nat :=
  let (m, p) := fmt.decode a
  let (n, q) := fmt.decode b
  let (x, y) := scale (m * n) 1 (-(p + q))
  fmt.round x y

def div (a b : Nat) : Nat :=
  let (m, p) := fmt.decode a
  let (n, q) := fmt.decode b
  let (x, y) := scale m n (q - p)
  fmt.round x y

end BinaryFormat

namespace Single

/-- The largest magnitude that is no sign bit. -/
def signBit : Nat := Nat.pow 2 31

def negative (x : Single) : Bool := signBit ≤ x.bits.toNat

def magnitude (x : Single) : Nat := x.bits.toNat % signBit

def ofMagnitude (negative : Bool) (m : Nat) : Single :=
  ⟨UInt32.ofNat (if negative then signBit + m else m)⟩

def isFinite (x : Single) : Bool := x.magnitude < BinaryFormat.single.infinity

def isNaN (x : Single) : Bool := BinaryFormat.single.infinity < x.magnitude

def toFloat32 (x : Single) : Float32 := Float32.ofBits x.bits

def ofFloat32 (x : Float32) : Single := ⟨x.toBits⟩

def add (a b : Single) : Single := ofFloat32 (a.toFloat32 + b.toFloat32)

def sub (a b : Single) : Single := ofFloat32 (a.toFloat32 - b.toFloat32)

def mul (a b : Single) : Single := ofFloat32 (a.toFloat32 * b.toFloat32)

def div (a b : Single) : Single := ofFloat32 (a.toFloat32 / b.toFloat32)

instance : Add Single := ⟨add⟩
instance : Sub Single := ⟨sub⟩
instance : Mul Single := ⟨mul⟩
instance : Div Single := ⟨div⟩

def zero : Single := ⟨0⟩

def one : Single := ⟨0x3f800000⟩

/-- Numeric equality: the two zeros agree, a NaN differs from everything. -/
def same (a b : Single) : Bool := a.toFloat32 == b.toFloat32

/-- The larger of `x` and zero; zero for a NaN. -/
def clampBelow (x : Single) : Single := if zero.toFloat32 < x.toFloat32 then x else zero

end Single

namespace Double

def signBit : Nat := Nat.pow 2 63

def negative (x : Double) : Bool := signBit ≤ x.bits.toNat

def magnitude (x : Double) : Nat := x.bits.toNat % signBit

def ofMagnitude (negative : Bool) (m : Nat) : Double :=
  ⟨UInt64.ofNat (if negative then signBit + m else m)⟩

def isFinite (x : Double) : Bool := x.magnitude < BinaryFormat.double.infinity

def isNaN (x : Double) : Bool := BinaryFormat.double.infinity < x.magnitude

def toFloat (x : Double) : Float := Float.ofBits x.bits

/-- Numeric equality: the two zeros agree, a NaN differs from everything. -/
def same (a b : Double) : Bool := a.toFloat == b.toFloat

def ofInt (n : Int) : Double := ofMagnitude (n < 0) (BinaryFormat.double.round n.natAbs 1)

def toSingle (x : Double) : Single :=
  let (m, q) := BinaryFormat.double.decode x.magnitude
  let (n, d) := BinaryFormat.scale m 1 (-q)
  .ofMagnitude x.negative (BinaryFormat.single.round n d)

end Double

end Dataflow
