/-!
# Machine sizes

Counts, positions and products of dimensions are natural numbers that have to fit a 64-bit word.
Where a computation would leave that range it ends in a `Fault`, which no part of the library
handles: it stops everything that was waiting for the result. `Failure` puts a fault beside the
errors that a caller does handle.
-/

namespace Dataflow

inductive Fault where
  /-- A result that no machine word holds. -/
  | overflow
  /-- A division by zero. -/
  | divisionByZero
  /-- A position outside its list. -/
  | outOfRange
deriving DecidableEq, Repr

/-- Why a computation gave no result: an error with a cause, or a fault. -/
inductive Failure (ε : Type u) where
  | error (cause : ε)
  | fault (fault : Fault)
deriving DecidableEq

namespace Failure

variable {ε : Type u} {ε' : Type v} {α : Type w}

def map (f : ε → ε') : Failure ε → Failure ε'
  | .error e => .error (f e)
  | .fault x => .fault x

def refuse (e : ε) : Except (Failure ε) α := .error (.error e)

def stop (x : Fault) : Except (Failure ε) α := .error (.fault x)

def element (xs : Array α) (i : Nat) : Except (Failure ε) α :=
  match xs[i]? with
  | some x => .ok x
  | none => stop .outOfRange

end Failure

instance {ε : Type u} : MonadLift (Except Fault) (Except (Failure ε)) where
  monadLift
    | .ok x => .ok x
    | .error f => .error (.fault f)

namespace Size

/-- The first number that is no machine size. -/
def limit : Nat := Nat.pow 2 64

/-- The first number that is no signed machine integer. -/
def signedLimit : Nat := Nat.pow 2 63

def check (n : Nat) : Except Fault Nat :=
  if n < limit then .ok n else .error .overflow

def add (a b : Nat) : Except Fault Nat := check (a + b)

def mul (a b : Nat) : Except Fault Nat := check (a * b)

def sub (a b : Nat) : Except Fault Nat :=
  if b ≤ a then .ok (a - b) else .error .overflow

def div (a b : Nat) : Except Fault Nat :=
  if b = 0 then .error .divisionByZero else .ok (a / b)

def mod (a b : Nat) : Except Fault Nat :=
  if b = 0 then .error .divisionByZero else .ok (a % b)

/-- The product of a list, each step of which has to fit: a zero in front keeps later factors
from overflowing, a zero behind does not. -/
def product (dims : List Nat) : Except Fault Nat := dims.foldlM mul 1

/-- Reads a machine word as a signed integer. -/
def toSigned (n : Nat) : Int := if n < signedLimit then n else (n : Int) - limit

/-- The signed integer with the bits of the machine word `n`. -/
def wrapSigned (n : Nat) : Int := toSigned (n % limit)

/-- The room a list of `count` four-byte elements needs has to be addressable. -/
def checkRoom (count : Nat) : Except Fault Unit :=
  if count * 4 < signedLimit then .ok () else .error .overflow

end Size

end Dataflow
