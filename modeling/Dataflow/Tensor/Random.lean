import Dataflow.Tensor.Basic

/-!
# Random tensors

Normally distributed tensors, drawn in pairs from a source of 32-bit words by the transform of Box
and Muller. A word gives a number from zero up to one in steps of `2 ^ (-24)`.
-/

namespace Dataflow.Tensor

def uniform (word : UInt32) : Float32 := (word >>> 8).toFloat32 * Float32.ofBits 0x33800000

def smallestNormal : Float32 := Float32.ofBits 0x00800000

/-- The circle constant in single precision. -/
def pi : Float32 := Float32.ofBits 0x40490fdb

/-- Element `i` of a normal sample of standard deviation `std`: the two elements of a pair are made
of the same two words. -/
def normal (std : Float32) (draw : Nat → UInt32) (i : Nat) : Float32 :=
  let u := uniform (draw (i / 2 * 2))
  let u := if u < smallestNormal then smallestNormal else u
  let radius := (Float32.ofBits 0xc0000000 * u.log).sqrt
  let angle := Float32.ofBits 0x40000000 * pi * uniform (draw (i / 2 * 2 + 1))
  radius * (if i % 2 = 0 then angle.cos else angle.sin) * std

/-- A tensor of normally distributed elements, made of the words of the source in order. -/
def randomNormal (dims : List Nat) (std : Single) (draw : Nat → UInt32) :
    Except Fault Tensor := do
  let n ← Size.product dims
  Size.checkRoom n
  return ⟨dims, (List.range n).map fun i => .ofFloat32 (normal std.toFloat32 draw i)⟩

end Dataflow.Tensor
