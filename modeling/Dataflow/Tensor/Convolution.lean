import Dataflow.Tensor.Basic

/-!
# Convolution

Direct two-dimensional convolution of an image batch (batch, channel, height, width) with a stack
of kernels (output channel, input channel, height, width). Positions outside the image contribute
nothing. Every output element is accumulated from zero in increasing order of input channel,
kernel row and kernel column, so the rounding of the sums is fixed.

Sizes are machine words. `tap` reads a padded position as a signed word, which is how a position
before the first row is told from one inside the image.
-/

namespace Dataflow

/-- The kernels of a convolution and how they are laid over the image; pairs are vertical first. -/
structure Convolution where
  /-- Output channels, input channels, height and width. -/
  weights : Tensor
  bias : Option Tensor
  strides : Nat × Nat
  padding : Nat × Nat
  dilation : Nat × Nat
deriving DecidableEq, Inhabited

namespace Convolution

/-- The extent of a kernel of `k` cells that lie `dilation` apart. -/
def span (dilation k : Nat) : Except Fault Nat := do
  Size.add (← Size.mul dilation (← Size.sub k 1)) 1

def padded (extent padding : Nat) : Except Fault Nat := do
  Size.add extent (← Size.mul 2 padding)

def tap (out stride cell dilation padding extent : Nat) : Except Fault (Option Nat) := do
  let reach ← Size.add (← Size.mul out stride) (← Size.mul cell dilation)
  let place := Size.toSigned reach - Size.toSigned padding
  if place < -(Size.signedLimit : Int) ∨ (Size.signedLimit : Int) ≤ place then
    throw .overflow
  return if 0 ≤ place ∧ place < Size.toSigned extent then some place.toNat else none

/-- Adds to a sum at every cell of a kernel in one direction that does not lie outside the image. -/
def sumOver (cells : Nat) (tap : Nat → Except Fault (Option Nat))
    (add : Single → (cell place : Nat) → Except Fault Single) (sum : Single) :
    Except Fault Single :=
  (List.range cells).foldlM (m := Except Fault) (fun acc cell => do
    match ← tap cell with
    | none => return acc
    | some place => add acc cell place) sum

/-- One output element: the sum over the kernel cells that fall inside the image. -/
def accumulate (c : Convolution) (image weights : Array Single)
    (channels height width kernelHeight kernelWidth : Nat) (batch out row column : Nat) :
    Except Fault Single :=
  (List.range channels).foldlM (m := Except Fault) (fun acc channel =>
    sumOver kernelHeight (tap row c.strides.1 · c.dilation.1 c.padding.1 height) (fun acc ky y =>
      sumOver kernelWidth (tap column c.strides.2 · c.dilation.2 c.padding.2 width) (fun acc kx x =>
        let source := ((batch * channels + channel) * height + y) * width + x
        let weight := ((out * channels + channel) * kernelHeight + ky) * kernelWidth + kx
        match image[source]?, weights[weight]? with
        | some a, some w => .ok (acc + a * w)
        | _, _ => .error .outOfRange) acc) acc) .zero

def write (data : Array Single) (k : Nat) (v : Single) : Except Fault (Array Single) :=
  if k < data.size then .ok (data.setIfInBounds k v) else .error .outOfRange

/-- Computes the outputs one after the other and writes each to its place in the result. -/
def fill (batch outs rows columns : Nat)
    (output : (batch out row column : Nat) → Except Fault Single) (data : Array Single) :
    Except Fault (Array Single) :=
  (List.range batch).foldlM (m := Except Fault) (fun data b =>
    (List.range outs).foldlM (fun data o =>
      (List.range rows).foldlM (fun data y =>
        (List.range columns).foldlM (fun data x => do
          let v ← output b o y x
          write data (((b * outs + o) * rows + y) * columns + x) v) data) data) data) data

/-- Convolves `image` with the kernels, without the bias. -/
def apply (c : Convolution) (image : Tensor) : Except (Failure TensorError) Tensor := do
  let [batch, channels, height, width] := image.dims
    | Failure.refuse (.notAnImage image.dims)
  let [outs, expected, kernelHeight, kernelWidth] := c.weights.dims
    | Failure.refuse (.notAKernel c.weights.dims)
  if expected ≠ channels then Failure.refuse (.channels expected channels)
  if c.strides.1 = 0 ∨ c.strides.2 = 0 then Failure.refuse .zeroStride
  let spanHeight ← span c.dilation.1 kernelHeight
  let spanWidth ← span c.dilation.2 kernelWidth
  let tooLarge := TensorError.kernelTooLarge kernelHeight kernelWidth height width
  let roomHeight ← padded height c.padding.1
  if roomHeight < spanHeight then Failure.refuse tooLarge
  let roomWidth ← padded width c.padding.2
  if roomWidth < spanWidth then Failure.refuse tooLarge
  let rows := (roomHeight - spanHeight) / c.strides.1 + 1
  let columns := (roomWidth - spanWidth) / c.strides.2 + 1
  let total ← Size.product [batch, outs, rows, columns]
  Size.checkRoom total
  let source := image.data.toArray
  let weights := c.weights.data.toArray
  let data ← fill batch outs rows columns
    (c.accumulate source weights channels height width kernelHeight kernelWidth)
    (.replicate total .zero)
  return ⟨[batch, outs, rows, columns], data.toList⟩

def same (a b : Convolution) : Bool :=
  let sameBias := match a.bias, b.bias with
    | none, none => true
    | some x, some y => x.same y
    | _, _ => false
  a.weights.same b.weights && sameBias && a.strides == b.strides && a.padding == b.padding &&
    a.dilation == b.dilation

end Convolution

end Dataflow
