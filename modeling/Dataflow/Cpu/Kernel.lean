import Dataflow.Program.Operation
import Dataflow.Tensor.Bias
import Dataflow.Tensor.Convolution

/-!
# Reference kernels

What the operations of the reference CPU backend compute. A kernel is applied to the values of its
inputs; it checks how many there are, that they are tensors where it needs tensors, and then
whatever the tensor operation checks.
-/

namespace Dataflow

/-- A computation of the reference backend, with its constants. -/
inductive Kernel where
  | input (declared : TensorShape)
  | constant (value : Tensor)
  | add
  | multiply
  | relu
  | identity
  | biasAdd (axis : Nat) (bias : Tensor)
  | transpose (axes : List Nat)
  | element (index : Nat)
  | tuple
  | convolution (spec : Convolution)
deriving DecidableEq, Inhabited

inductive KernelError where
  | arity (opType name : String) (expected given : Nat)
  | nonconforming (name : String) (declared : TensorShape) (dims : List Nat)
  | value (error : ValueError)
  | tensor (error : TensorError)
deriving DecidableEq

namespace KernelError

def message : KernelError → String
  | arity t n expected given => s!"{t} '{n}' expects {expected} input(s), got {given}"
  | nonconforming n declared dims =>
    s!"input '{n}' declared as {declared.display} but fed {Text.showSizes dims}"
  | value e => e.message
  | tensor e => e.message

end KernelError

namespace Kernel

def one (opType name : String) (inputs : List Value) : Except (Failure KernelError) Value :=
  match inputs with
  | [v] => .ok v
  | _ => Failure.refuse (.arity opType name 1 inputs.length)

def two (opType name : String) (inputs : List Value) :
    Except (Failure KernelError) (Value × Value) :=
  match inputs with
  | [v, w] => .ok (v, w)
  | _ => Failure.refuse (.arity opType name 2 inputs.length)

def asTensor (v : Value) : Except (Failure KernelError) Tensor :=
  v.asTensor.mapError fun e => .error (.value e)

def oneTensor (opType name : String) (inputs : List Value) :
    Except (Failure KernelError) Tensor := do
  asTensor (← one opType name inputs)

def lift (x : Except (Failure TensorError) α) : Except (Failure KernelError) α :=
  x.mapError (.map .tensor)

def combine (f : Single → Single → Single) (opType name : String) (inputs : List Value) :
    Except (Failure KernelError) Value := do
  let (v, w) ← two opType name inputs
  let a ← asTensor v
  let b ← asTensor w
  return .tensor (← lift (a.zipWith f b))

/-- The value of a kernel for its inputs, in an operation of a type and a name. -/
def forward (k : Kernel) (opType name : String) (inputs : List Value) :
    Except (Failure KernelError) Value := do
  match k with
  | input declared =>
    let fed ← oneTensor opType name inputs
    if declared.admits fed.dims then return .tensor fed
    else Failure.refuse (.nonconforming name declared fed.dims)
  | constant value => return .tensor value
  | add => combine (· + ·) opType name inputs
  | multiply => combine (· * ·) opType name inputs
  | relu => return .tensor ((← oneTensor opType name inputs).map Single.clampBelow)
  | identity => one opType name inputs
  | biasAdd axis bias =>
    let t ← oneTensor opType name inputs
    return .tensor (← lift (t.addBias bias axis))
  | transpose axes =>
    let t ← oneTensor opType name inputs
    return .tensor (← lift (t.transpose axes))
  | element index =>
    let v ← one opType name inputs
    return .tensor (← (v.element index).mapError fun e => .error (.value e))
  | tuple => return .tuple (← inputs.mapM asTensor)
  | convolution spec =>
    let t ← oneTensor opType name inputs
    let sums ← lift (spec.apply t)
    match spec.bias with
    | none => return .tensor sums
    | some bias => return .tensor (← lift (sums.addBias bias 1))

/-- What calibration looks at: the sums of a convolution before the bias is added. -/
def calibration (k : Kernel) (opType name : String) (inputs : List Value) :
    Except (Failure KernelError) (Option Value) := do
  match k with
  | convolution spec =>
    let t ← oneTensor opType name inputs
    return some (.tensor (← lift (spec.apply t)))
  | _ => return none

def same : Kernel → Kernel → Bool
  | constant a, constant b => a.same b
  | biasAdd i a, biasAdd j b => i == j && a.same b
  | convolution a, convolution b => a.same b
  | constant _, _ | biasAdd .., _ | convolution _, _ => false
  | a, b => a == b

/-- The operation of a node that applies the kernel to the node's inputs. -/
def operation (k : Kernel) (node : Node) (inputs : List String) (shape : Shapes) : Operation where
  name := node.name
  opType := node.opType
  inputs
  shape
  forward values :=
    (k.forward node.opType node.name values).mapError (.map KernelError.message)
  calibration values :=
    (k.calibration node.opType node.name values).mapError (.map KernelError.message)

end Kernel

end Dataflow
