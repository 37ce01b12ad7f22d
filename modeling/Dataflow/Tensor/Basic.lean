import Dataflow.Number.Binary
import Dataflow.Size
import Dataflow.Text.Quoted

/-!
# Tensors

Dense row-major tensors of single precision numbers: dimensions and a flat list of elements. A
tensor read from storage may hold more or fewer elements than its dimensions ask for; `ofData`
refuses such a pair and `WellFormed` names the ones it accepts. Elements are addressed by their
position in the list or by their index, one coordinate for each axis, the last of which varies
fastest.
-/

namespace Dataflow

/-- A dense row-major tensor. No dimensions at all describe a scalar. -/
structure Tensor where
  dims : List Nat
  data : List Single
deriving DecidableEq, Inhabited

inductive TensorError where
  | lengthMismatch (length : Nat) (dims : List Nat)
  | incompatible (left right : List Nat)
  | permutationLength (axes : List Nat) (rank : Nat)
  | notAPermutation (axes : List Nat)
  | biasAxis (axis : Nat) (dims : List Nat)
  | biasLength (length axis : Nat) (dims : List Nat)
  | notAnImage (dims : List Nat)
  | notAKernel (dims : List Nat)
  | channels (expected given : Nat)
  | zeroStride
  | kernelTooLarge (kernelHeight kernelWidth height width : Nat)
deriving DecidableEq, Repr

namespace TensorError

open Text in
def message : TensorError → String
  | lengthMismatch n dims =>
    s!"tensor data length ({n}) does not match shape {showSizes dims}"
  | incompatible l r =>
    s!"incompatible shapes for elementwise op: {showSizes l} vs {showSizes r}"
  | permutationLength axes rank =>
    s!"transpose permutation {showSizes axes} does not match rank {rank}"
  | notAPermutation axes => s!"invalid transpose permutation {showSizes axes}"
  | biasAxis axis dims => s!"bias axis {axis} out of range for {showSizes dims}"
  | biasLength n axis dims =>
    s!"bias of length {n} does not match axis {axis} of {showSizes dims}"
  | notAnImage dims => s!"convolution expects an NCHW input, got {showSizes dims}"
  | notAKernel dims => s!"convolution expects OIHW weights, got {showSizes dims}"
  | channels expected given => s!"weights expect {expected} input channels, input has {given}"
  | zeroStride => "convolution strides must be positive"
  | kernelTooLarge kh kw h w =>
    s!"kernel {kh}x{kw} does not fit padded input {h}x{w}"

end TensorError

namespace Dims

/-- The number of elements, exactly. -/
def volume : List Nat → Nat
  | [] => 1
  | d :: ds => d * volume ds

/-- How far apart in the flat list two neighbours along each axis lie. -/
def strides : List Nat → Except Fault (List Nat)
  | [] => .ok []
  | _ :: ds => do
    let rest ← strides ds
    match ds, rest with
    | d :: _, s :: _ => return (← Size.mul s d) :: rest
    | _, _ => return [1]

/-- The index after `index`, and whether it starts again at the front. The last coordinate counts
up; one that reaches the end of its axis starts again and lets the coordinate before it count. -/
def advance : (dims index : List Nat) → List Nat × Bool
  | d :: ds, i :: is =>
    let (rest, carry) := advance ds is
    if carry then
      if i + 1 < d then ((i + 1) :: rest, false) else (0 :: rest, true)
    else (i :: rest, false)
  | _, _ => ([], true)

/-- The first `n` indices from `index` on. -/
def walk (dims : List Nat) : (n : Nat) → (index : List Nat) → List (List Nat)
  | 0, _ => []
  | n + 1, index => index :: walk dims n (advance dims index).1

end Dims

namespace Tensor

/-- The elements are as many as the dimensions ask for. -/
def WellFormed (t : Tensor) : Prop := t.data.length = Dims.volume t.dims

def ofData (dims : List Nat) (data : List Single) : Except (Failure TensorError) Tensor := do
  let n ← Size.product dims
  if data.length = n then return ⟨dims, data⟩
  else Failure.refuse (.lengthMismatch data.length dims)

def scalar (x : Single) : Tensor := ⟨[], [x]⟩

def full (dims : List Nat) (x : Single) : Except Fault Tensor := do
  let n ← Size.product dims
  Size.checkRoom n
  return ⟨dims, List.replicate n x⟩

def size (t : Tensor) : Nat := t.data.length

def map (f : Single → Single) (t : Tensor) : Tensor := ⟨t.dims, t.data.map f⟩

def set (t : Tensor) (i : Nat) (x : Single) : Except Fault Tensor :=
  if i < t.data.length then .ok ⟨t.dims, t.data.set i x⟩ else .error .outOfRange

/-- Combines two tensors element by element. Their dimensions have to agree, unless one of them
holds a single element, which is then combined with every element of the other. -/
def zipWith (f : Single → Single → Single) (a b : Tensor) :
    Except (Failure TensorError) Tensor :=
  if a.dims = b.dims then .ok ⟨a.dims, List.zipWith f a.data b.data⟩
  else
    match a.data, b.data with
    | _, [y] => .ok (a.map fun x => f x y)
    | [x], _ => .ok (b.map fun y => f x y)
    | _, _ => Failure.refuse (.incompatible a.dims b.dims)

/-- Permutes the axes: axis `i` of the result is axis `axes[i]` of `t`. -/
def transpose (t : Tensor) (axes : List Nat) : Except (Failure TensorError) Tensor := do
  let rank := t.dims.length
  if axes.length ≠ rank then Failure.refuse (.permutationLength axes rank)
  if ¬ (axes.all (· < rank) ∧ axes.Nodup) then Failure.refuse (.notAPermutation axes)
  let strides ← Dims.strides t.dims
  let steps := axes.map (strides.getD · 0)
  let dims := axes.map (t.dims.getD · 0)
  let source := t.data.toArray
  let data ← (Dims.walk dims t.data.length (dims.map fun _ => 0)).mapM fun index =>
    Failure.element source ((List.zipWith (· * ·) index steps).foldr (· + ·) 0)
  return ⟨dims, data⟩

def same (a b : Tensor) : Bool :=
  a.dims == b.dims && a.data.length == b.data.length &&
    (a.data.zip b.data).all fun p => p.1.same p.2

end Tensor

end Dataflow
