import Dataflow.Json.Basic
import Dataflow.Json.Lexer
import Dataflow.Number.Shortest
import Dataflow.Size

/-!
# Numbers in JSON

Reads number literals as integers of a range or as floating point numbers, and writes floating
point numbers with the fewest digits of which they are the nearest number. A `DecimalStyle` says
which of them are written with a point at its place and which with an exponent.

Reading a floating point number rounds up to three times: the significand, the power of ten, and
their product or quotient. The result is not always the nearest number, so there are numbers that
are read back as one of their neighbours.
-/

namespace Dataflow

namespace Json

namespace Number

def valueOf (ds : List Char) : Nat :=
  ds.foldl (fun n c => 10 * n + (c.toNat - '0'.toNat)) 0

/-- The integer that a literal without fraction and exponent spells; minus zero is none. -/
def toInt? (n : Number) : Option Int :=
  if n.fraction.isSome ∨ n.exponent.isSome then none
  else
    let m := valueOf n.whole
    if n.negative then (if m = 0 then none else some (-(m : Int))) else some m

/-- Appends digits to a significand for as long as it fits a machine word: the significand, and the
digits that are left. -/
def takeDigits (significand : Nat) : List Char → Nat × List Char
  | [] => (significand, [])
  | c :: cs =>
    let next := 10 * significand + (c.toNat - '0'.toNat)
    if next < Size.limit then takeDigits next cs else (significand, c :: cs)

/-- The literal as a machine word without its sign, if it spells one. -/
def word? (n : Number) : Option Nat :=
  if n.fraction.isSome ∨ n.exponent.isSome then none
  else
    let (m, rest) := takeDigits 0 n.whole
    if rest = [] then some m else none

/-- The leading digits, as many as fit a machine word, and the power of ten that the last of them
stands for. The exponent of the literal is not counted in. -/
def significand (n : Number) : Nat × Int :=
  let (m, rest) := takeDigits 0 n.whole
  let fraction := n.fraction.getD []
  let (m, dropped) := takeDigits m fraction
  (m, rest.length - (fraction.length - dropped.length : Nat))

end Number

def exponentLimit : Nat := 2147483647

def tableLimit : Nat := 308

/-- The magnitude of a power of ten in the table. -/
def power (e : Nat) : Nat := BinaryFormat.double.round (Nat.pow 10 e) 1

/-- Scales a magnitude by a power of ten, in one rounding step if the power is in the table; there
is none if the result is too large. The magnitude is that of the significand, rounded as well, so
the result may be a neighbour of the nearest double. -/
def scaleByPower (magnitude : Nat) (exponent : Int) : Option Nat :=
  if exponent.natAbs ≤ tableLimit then
    if 0 ≤ exponent then
      let scaled := BinaryFormat.double.mul magnitude (power exponent.natAbs)
      if scaled < BinaryFormat.double.infinity then some scaled else none
    else some (BinaryFormat.double.div magnitude (power exponent.natAbs))
  else if magnitude = 0 then some 0
  else if 0 ≤ exponent then none
  else
    scaleByPower (BinaryFormat.double.div magnitude (power tableLimit)) (exponent + tableLimit)
termination_by exponent.natAbs
decreasing_by
  rw [tableLimit] at *
  omega

namespace Number

/-- The magnitude of a literal as a double, if it is not too large. -/
def magnitude? (n : Number) : Option Nat :=
  match n.word? with
  | some m => some (BinaryFormat.double.round m 1)
  | none =>
    let (m, e) := n.significand
    let start := BinaryFormat.double.round m 1
    match n.exponent with
    | none => scaleByPower start e
    | some (negative, ds) =>
      let shift := valueOf ds
      if exponentLimit < shift then if m = 0 ∨ negative then some 0 else none
      else if negative then scaleByPower start (max (e - shift) (-exponentLimit - 1))
      else scaleByPower start (min (e + shift) exponentLimit)

def toDouble? (n : Number) : Option Double :=
  n.magnitude?.map (Double.ofMagnitude n.negative)

/-- The single precision number of a literal. Machine integers are rounded once, everything else is
read as a double first. -/
def toSingle? (n : Number) : Option Single :=
  match n.word? with
  | some m =>
    if n.negative ∧ (m = 0 ∨ Size.signedLimit < m) then n.toDouble?.map Double.toSingle
    else some (Single.ofMagnitude n.negative (BinaryFormat.single.round m 1))
  | none => n.toDouble?.map Double.toSingle

end Number

def asNumber? : Json → Option Number
  | num literal => Number.ofLiteral? literal.toList
  | _ => none

def asInt? (j : Json) : Option Int := do
  let n ← (← j.asNumber?).toInt?
  if -(Size.signedLimit : Int) ≤ n ∧ n < Size.signedLimit then return n else none

def asSize? (j : Json) : Option Nat := do
  let n ← (← j.asNumber?).toInt?
  if 0 ≤ n ∧ n < Size.limit then return n.toNat else none

def asDouble? (j : Json) : Option Double := do (← j.asNumber?).toDouble?

def asSingle? (j : Json) : Option Single := do (← j.asNumber?).toSingle?

end Json

/-- Which decimals are written with the point at its place: those whose first digit stands for a
power of ten within these bounds. -/
structure DecimalStyle where
  lowest : Int
  highest : Int

namespace DecimalStyle

/-- Doubles are written in full from 0.00001 up to sixteen digits before the point. -/
def double : DecimalStyle := ⟨-5, 15⟩

/-- Single precision numbers are written in full from 0.000001 up to thirteen digits before the
point. -/
def single : DecimalStyle := ⟨-6, 12⟩

/-- The text of a decimal whose digits are `ds`, the first of which stands for `10 ^ e`. There is
always a digit on both sides of a point, and an exponent always has a sign. -/
def layOut (style : DecimalStyle) (ds : List Char) (e : Int) : List Char :=
  if style.lowest ≤ e ∧ e ≤ style.highest then
    if e < 0 then '0' :: '.' :: List.replicate (-e - 1).toNat '0' ++ ds
    else
      let whole := e.toNat + 1
      if ds.length ≤ whole then ds ++ List.replicate (whole - ds.length) '0' ++ ['.', '0']
      else ds.take whole ++ '.' :: ds.drop whole
  else
    let mantissa := match ds with
      | d :: r@(_ :: _) => d :: '.' :: r
      | _ => ds
    let sign := if e < 0 then '-' else '+'
    mantissa ++ 'e' :: sign :: Nat.toDigits 10 e.natAbs

/-- The text of a finite number of a binary format, given its sign and magnitude. -/
def render (style : DecimalStyle) (fmt : BinaryFormat) (negative : Bool) (magnitude : Nat) :
    List Char :=
  let sign := if negative then ['-'] else []
  if magnitude = 0 then sign ++ ['0', '.', '0']
  else
    let d := fmt.shortest magnitude
    let ds := Nat.toDigits 10 d.digits
    sign ++ style.layOut ds (d.exponent + ds.length - 1)

end DecimalStyle

/-- A double as a JSON number; one that is not finite is written as `null`. -/
def Double.toJson (x : Double) : Json :=
  if x.isFinite then
    .num (String.ofList (DecimalStyle.double.render .double x.negative x.magnitude))
  else .null

/-- A single precision number as a JSON number; one that is not finite is written as `null`. -/
def Single.toJson (x : Single) : Json :=
  if x.isFinite then
    .num (String.ofList (DecimalStyle.single.render .single x.negative x.magnitude))
  else .null

end Dataflow
