import Dataflow.Tensor.Basic

/-!
# Values

What an operation consumes and produces: one tensor, or the tuple of tensors of an operation with
several outputs.
-/

namespace Dataflow

inductive Value where
  | tensor (t : Tensor)
  | tuple (items : List Tensor)
deriving DecidableEq, Inhabited

inductive ValueError where
  | tupleForTensor (count : Nat)
  | indexIntoTensor (index : Nat)
  | indexIntoTuple (index count : Nat)
deriving DecidableEq, Repr

def ValueError.message : ValueError → String
  | tupleForTensor n => s!"expected a tensor but found a tuple of {n}"
  | indexIntoTensor i => s!"tuple index {i} out of range for a single tensor"
  | indexIntoTuple i n => s!"tuple index {i} out of range for a tuple of {n}"

namespace Value

def isTuple : Value → Bool
  | tensor _ => false
  | tuple _ => true

def asTensor : Value → Except ValueError Tensor
  | tensor t => .ok t
  | tuple items => .error (.tupleForTensor items.length)

/-- The element at position `i`; a tensor answers like a tuple that holds it alone. -/
def element (v : Value) (i : Nat) : Except ValueError Tensor :=
  match v with
  | tensor t => if i = 0 then .ok t else .error (.indexIntoTensor i)
  | tuple items =>
    match items[i]? with
    | some t => .ok t
    | none => .error (.indexIntoTuple i items.length)

def WellFormed : Value → Prop
  | tensor t => t.WellFormed
  | tuple items => ∀ t ∈ items, t.WellFormed

def same : Value → Value → Bool
  | tensor a, tensor b => a.same b
  | tuple as, tuple bs =>
    as.length == bs.length && (as.zip bs).all fun p => p.1.same p.2
  | _, _ => false

end Value

end Dataflow
