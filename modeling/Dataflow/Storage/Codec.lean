import Dataflow.Dict
import Dataflow.Number.Binary
import Dataflow.Size

/-!
# Binary codecs

A codec writes values as bytes and reads them from the front of a byte list, leaving the bytes
behind them. Numbers are little endian, lengths are eight-byte words in front of what they count,
and a sum is a four-byte case number followed by the case. Reading reports the first trouble it
comes upon.
-/

namespace Dataflow

/-- The trouble with bytes that hold no value of the expected type. -/
inductive BinaryError where
  /-- The bytes end inside the value. -/
  | endOfData
  | notText
  | notABool
  /-- The mark of an optional value is neither zero nor one. -/
  | notAMark
  /-- A sum has no case of that number. -/
  | unknownCase
deriving DecidableEq, Repr

/-- Reads a value from the front of a byte list. -/
abbrev Reader := StateT (List UInt8) (Except BinaryError)

namespace Reader

def byte : Reader UInt8 := fun
  | [] => .error .endOfData
  | b :: bs => .ok (b, bs)

def bytes (n : Nat) : Reader (List UInt8) := fun bs =>
  if bs.length < n then .error .endOfData else .ok (bs.take n, bs.drop n)

/-- A little-endian word of `k` bytes. -/
def word : (k : Nat) → Reader Nat
  | 0 => return 0
  | k + 1 => do
    let low ← byte
    let high ← word k
    return low.toNat + 256 * high

def many (item : Reader α) : (n : Nat) → Reader (List α)
  | 0 => return []
  | n + 1 => do
    let x ← item
    let xs ← many item n
    return x :: xs

end Reader

def littleEndian : (k n : Nat) → List UInt8
  | 0, _ => []
  | k + 1, n => UInt8.ofNat n :: littleEndian k (n / 256)

/-- A way to write values as bytes and to read them back. -/
structure Codec (α : Type) where
  encode : α → List UInt8
  decode : Reader α

namespace Codec

variable {α β : Type}

/-- Reads the whole of a byte list's front; what stands behind the value is left out. -/
def read (c : Codec α) (bytes : List UInt8) : Except BinaryError α :=
  (c.decode bytes).map Prod.fst

def via (c : Codec α) (pack : β → α) (unpack : α → β) : Codec β where
  encode x := c.encode (pack x)
  decode := do return unpack (← c.decode)

def pair (a : Codec α) (b : Codec β) : Codec (α × β) where
  encode x := a.encode x.1 ++ b.encode x.2
  decode := do
    let x ← a.decode
    let y ← b.decode
    return (x, y)

/-- A word of `k` bytes. -/
def word (k : Nat) : Codec Nat := ⟨littleEndian k, .word k⟩

def size : Codec Nat := word 8

def int : Codec Int := size.via (fun n => (n % Size.limit).toNat) Size.toSigned

def single : Codec Single := (word 4).via (·.bits.toNat) fun n => ⟨UInt32.ofNat n⟩

def double : Codec Double := (word 8).via (·.bits.toNat) fun n => ⟨UInt64.ofNat n⟩

def bool : Codec Bool where
  encode b := [if b then 1 else 0]
  decode := do
    let b ← Reader.byte
    if b = 0 then return false
    else if b = 1 then return true
    else throw .notABool

def text : Codec String where
  encode s := littleEndian 8 s.toUTF8.data.size ++ s.toUTF8.data.toList
  decode := do
    let n ← Reader.word 8
    let bs ← Reader.bytes n
    match String.fromUTF8? ⟨bs.toArray⟩ with
    | some s => return s
    | none => throw .notText

def list (c : Codec α) : Codec (List α) where
  encode xs := littleEndian 8 xs.length ++ xs.flatMap c.encode
  decode := do
    let n ← Reader.word 8
    Reader.many c.decode n

def option (c : Codec α) : Codec (Option α) where
  encode
    | none => [0]
    | some x => 1 :: c.encode x
  decode := do
    let b ← Reader.byte
    if b = 0 then return none
    else if b = 1 then return some (← c.decode)
    else throw .notAMark

/-- The entries of a dictionary. They may be read in any order, and of two entries with one key the
later counts. -/
def dict (c : Codec α) : Codec (Dict α) := (list (pair text c)).via Dict.entries Dict.ofList

end Codec

end Dataflow
