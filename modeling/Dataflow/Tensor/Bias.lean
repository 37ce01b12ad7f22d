import Dataflow.Tensor.Basic

/-!
# Bias addition

Adds to every element the bias entry that belongs to its coordinate along one axis.
-/

namespace Dataflow.Tensor

/-- Adds `bias` along `axis`, which it has to match in length. The coordinate of a position along
the axis is found by dividing by the volume behind the axis. -/
def addBias (t bias : Tensor) (axis : Nat) : Except (Failure TensorError) Tensor := do
  match t.dims[axis]? with
  | none => Failure.refuse (.biasAxis axis t.dims)
  | some extent =>
    if bias.size ≠ extent then Failure.refuse (.biasLength bias.size axis t.dims)
    let stride ← Size.product (t.dims.drop (axis + 1))
    let entries := bias.data.toArray
    let data ← t.data.zipIdx.mapM fun (x, i) => do
      let row ← Size.div i stride
      let column ← Size.mod row extent
      return x + (← Failure.element entries column)
    return ⟨t.dims, data⟩

end Dataflow.Tensor
