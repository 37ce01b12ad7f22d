import Dataflow.Cpu.Kernel

/-!
# The reference backend

How the reference CPU backend lowers each operation type: every node becomes one operation.
Weights and biases are taken from the constant tensors of the node, or else from the parameters
under a name derived from the node's.
-/

namespace Dataflow.Cpu

inductive LoweringError where
  | tupleShape (node : String)
  | pairNotInts (key node : String)
  | pairNotTwo (key node : String) (ints : List Int)
  | noConstant (node : String)
  | oneBottom (node : String) (bottoms : List String)
  | twoBottoms (node : String) (bottoms : List String)
  | noBias (node : String)
  | negativeBiasAxis (node : String) (axis : Int)
  | noAxes (node : String)
  | negativeAxis (axis : Int)
  | noIndex (node : String)
  | negativeIndex (index : Int)
  | notATensor (node bottom : String)
  | noWeights (node : String)
deriving DecidableEq, Repr

namespace LoweringError

/-- What is wrong with a negative number where a size is wanted. -/
def tooSmall : String := "number too small to fit in target type"

open Text in
def message : LoweringError → String
  | tupleShape n => s!"node '{n}' must have a single output shape"
  | pairNotInts k n => s!"attribute '{k}' of '{n}' must be a list of ints"
  | pairNotTwo k n ints =>
    s!"attribute '{k}' of '{n}' must hold two non-negative ints, got {showInts ints}"
  | noConstant n => s!"constant '{n}' carries no data"
  | oneBottom n bottoms => s!"'{n}' expects one bottom, got {quoteList bottoms}"
  | twoBottoms n bottoms => s!"'{n}' expects two bottoms, got {quoteList bottoms}"
  | noBias n => s!"bias add '{n}' carries no bias"
  | negativeBiasAxis n axis => s!"bias add '{n}' has negative axis {axis}"
  | noAxes n => s!"transpose '{n}' has no 'axes' attribute"
  | negativeAxis axis => s!"negative axis {axis}: {tooSmall}"
  | noIndex n => s!"'{n}' has no 'index' attribute"
  | negativeIndex i => s!"negative tuple index {i}: {tooSmall}"
  | notATensor n b => s!"tuple '{n}' input '{b}' is not a single tensor"
  | noWeights n => s!"convolution '{n}' carries no weights"

end LoweringError

abbrev Handler :=
  Node → (shapeOf : String → Option Shapes) → (params : Dict Tensor) → (batch : Int) →
    Except LoweringError Operation

/-- A handler as an entry of a dispatch table. -/
def Handler.lowering (h : Handler) : Lowering := fun node shapeOf params batch =>
  ((h node shapeOf params batch).map ([·])).mapError LoweringError.message

def orElse (x : Option α) (e : LoweringError) : Except LoweringError α :=
  match x with
  | some a => .ok a
  | none => .error e

def natural (n : Int) (e : LoweringError) : Except LoweringError Nat :=
  if 0 ≤ n then .ok n.toNat else .error e

def pairAttr (node : Node) (key : String) (byDefault : Nat) :
    Except LoweringError (Nat × Nat) := do
  match node.attr? key with
  | none => return (byDefault, byDefault)
  | some value =>
    match ← orElse value.asInts? (.pairNotInts key node.name) with
    | [a, b] =>
      if 0 ≤ a ∧ 0 ≤ b then return (a.toNat, b.toNat)
      else throw (.pairNotTwo key node.name [a, b])
    | ints => throw (.pairNotTwo key node.name ints)

/-- Constant tensor number `slot` of the node, or the parameter of the given name. -/
def weight? (node : Node) (slot : Nat) (params : Dict Tensor) (param : String) : Option Tensor :=
  node.data[slot]? <|> params.get? param

/-- An input is fed under its own name; a leading dimension that is left open takes the batch
size. -/
def input : Handler := fun node _ _ batch => do
  let shape ← orElse node.shapes.asTensor? (.tupleShape node.name)
  let declared := shape.withBatch batch
  return (Kernel.input declared).operation node [node.name] (.tensor declared)

def constant : Handler := fun node _ params _ => do
  let value ← orElse (weight? node 0 params node.name) (.noConstant node.name)
  return (Kernel.constant value).operation node [] node.shapes

def unary (k : Kernel) : Handler := fun node _ _ _ =>
  if node.bottoms.length = 1 then .ok (k.operation node node.bottoms node.shapes)
  else .error (.oneBottom node.name node.bottoms)

def binary (k : Kernel) : Handler := fun node _ _ _ =>
  if node.bottoms.length = 2 then .ok (k.operation node node.bottoms node.shapes)
  else .error (.twoBottoms node.name node.bottoms)

def biasAdd : Handler := fun node shapeOf params batch => do
  let bias ← orElse (weight? node 0 params (node.name ++ "_bias")) (.noBias node.name)
  let axis := ((node.attr? "axis").bind Attr.asInt?).getD 1
  let axis ← natural axis (.negativeBiasAxis node.name axis)
  unary (.biasAdd axis bias) node shapeOf params batch

def transpose : Handler := fun node shapeOf params batch => do
  let axes ← orElse ((node.attr? "axes").bind Attr.asInts?) (.noAxes node.name)
  let axes ← axes.mapM fun a => natural a (.negativeAxis a)
  unary (.transpose axes) node shapeOf params batch

/-- An accessor has the shape of the output it reads, where that is known. -/
def accessor : Handler := fun node shapeOf _ _ => do
  let index ← orElse ((node.attr? "index").bind Attr.asInt?) (.noIndex node.name)
  let index ← natural index (.negativeIndex index)
  match node.bottoms with
  | [source] =>
    let known := (shapeOf source).bind (·.get? index)
    return (Kernel.element index).operation node node.bottoms
      ((known.map Shapes.tensor).getD node.shapes)
  | bottoms => throw (.oneBottom node.name bottoms)

def tuple : Handler := fun node shapeOf _ _ => do
  let items ← node.bottoms.mapM fun b =>
    orElse ((shapeOf b).bind Shapes.asTensor?) (.notATensor node.name b)
  return Kernel.tuple.operation node node.bottoms (.tuple items)

def convolution : Handler := fun node shapeOf params batch => do
  let weights ← orElse (weight? node 0 params (node.name ++ "_weights")) (.noWeights node.name)
  let strides ← pairAttr node "strides" 1
  let padding ← pairAttr node "padding" 0
  let dilation ← pairAttr node "dilation" 1
  let bias := weight? node 1 params (node.name ++ "_biases")
  unary (.convolution { weights, bias, strides, padding, dilation }) node shapeOf params batch

def handlers : List (String × Handler) :=
  [("Input", input), ("StrInput", input), ("Constant", constant), ("Add", binary .add),
    ("Eltwise", binary .add), ("Multiply", binary .multiply), ("ReLU", unary .relu),
    ("Identity", unary .identity), ("BiasAdd", biasAdd), ("Transpose", transpose),
    (Node.accessorType, accessor), ("Tuple", tuple), (Operation.calibratedType, convolution)]

def table : DispatchTable :=
  handlers.foldl (fun t h => t.register h.1 h.2.lowering) .empty

end Dataflow.Cpu
