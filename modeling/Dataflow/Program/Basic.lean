import Dataflow.Graph.Basic
import Dataflow.Program.Operation

/-!
# Programs

The executable form of a list of nodes for one device. Lowering goes through the nodes in order;
every node becomes one or more operations, of which the last computes the value of the node. Each
operation may read only what stands before it, parameters, and the tensor fed under the name of
its own input node.
-/

namespace Dataflow

/-- How a list of nodes or what it was lowered to does not fit together. -/
inductive IntegrityFlaw where
  | repeatedName
  | bottomNotLowered (bottom : String)
  | unproducedInput (operation input : String)
deriving DecidableEq, Repr

namespace IntegrityFlaw

def message : IntegrityFlaw → String
  | repeatedName => "node name appears more than once"
  | bottomNotLowered b => s!"bottom '{b}' is not lowered before its consumer"
  | unproducedInput o i => s!"operation '{o}' reads '{i}', which no earlier operation produces"

end IntegrityFlaw

/-- Why a node could not be lowered. -/
inductive LoweringFlaw where
  | handler (message : String)
  | noOperations
deriving DecidableEq, Repr

namespace LoweringFlaw

def message : LoweringFlaw → String
  | handler m => m
  | noOperations => "lowering produced no operations"

end LoweringFlaw

inductive ProgramError where
  | unsupportedOperation (node opType device : String)
  | integrity (node : String) (flaw : IntegrityFlaw)
  | unresolvedInput (operation tensor : String)
  | lowering (node : String) (flaw : LoweringFlaw)
  | kernel (operation message : String)
  | notFound (name : String)
  | unknownDevice (device : String)
deriving DecidableEq, Repr

namespace ProgramError

def message : ProgramError → String
  | unsupportedOperation n t d =>
    s!"device '{d}' has no lowering for operation type '{t}' (node '{n}')"
  | integrity n flaw => s!"integrity violation at node '{n}': {flaw.message}"
  | unresolvedInput o t =>
    s!"operation '{o}' reads '{t}', which is neither computed, a parameter nor fed"
  | lowering n flaw => s!"lowering node '{n}' failed: {flaw.message}"
  | kernel o m => s!"operation '{o}' failed: {m}"
  | notFound n => s!"'{n}' is not a node of this runtime or was not computed"
  | unknownDevice d => s!"no dispatch table registered for device '{d}'"

end ProgramError

structure Stage where
  node : Node
  operations : List Operation
  nonempty : operations ≠ []

namespace Stage

/-- The operation through which an input node is fed. -/
def first (s : Stage) : Operation := s.operations.head s.nonempty

/-- The operation that computes the value of the node. -/
def last (s : Stage) : Operation := s.operations.getLast s.nonempty

end Stage

structure Program where
  name : String
  device : String
  batch : Int
  params : Dict Tensor
  stages : List Stage

namespace Program

/-- The batch size of programs that take any. -/
def openBatch : Int := -1

def nodes (p : Program) : List Node := p.stages.map Stage.node

def operations (p : Program) : List Operation := p.stages.flatMap Stage.operations

def inputs (p : Program) : List Operation :=
  (p.stages.filter fun s => s.node.isInput && !p.params.contains s.node.name).map Stage.first

def inputNames (p : Program) : List String := p.inputs.map Operation.name

def outputs (p : Program) : List Operation :=
  (p.stages.filter fun s => s.node.isOutput).map Stage.last

def outputNames (p : Program) : List String := p.outputs.map Operation.name

def node (p : Program) (name : String) : Except ProgramError Node :=
  match p.nodes.find? (·.name = name) with
  | some n => .ok n
  | none => .error (.notFound name)

/-! ## Lowering -/

structure Recipe where
  device : String
  table : DispatchTable
  params : Dict Tensor
  batch : Int

/-- The output shapes of a lowered node. -/
def shapeOf (done : List Stage) (name : String) : Option Shapes :=
  (done.find? (·.node.name = name)).map (·.last.shape)

/-- The first input of an operation that is none of the produced names, no parameter, and not the
name of the input node the operation belongs to. -/
def unproduced? (params : Dict Tensor) (node : Node) (produced : List String) (o : Operation) :
    Option String :=
  o.inputs.find? fun i =>
    i ∉ produced && !params.contains i && !(node.isInput && i == node.name)

/-- Checks the inputs of the operations of one node, each of which produces its own name for those
behind it. -/
def checkInputs (params : Dict Tensor) (node : Node) :
    (produced : List String) → List Operation → Except ProgramError Unit
  | _, [] => .ok ()
  | produced, o :: os =>
    match unproduced? params node produced o with
    | some i => .error (.integrity node.name (.unproducedInput o.name i))
    | none => checkInputs params node (o.name :: produced) os

/-- Lowers a node after those that are done. -/
def lowerNode (r : Recipe) (done : List Stage) (node : Node) : Except ProgramError Stage := do
  let names := done.map (·.node.name)
  if node.name ∈ names then throw (.integrity node.name .repeatedName)
  if let some b := node.bottoms.find? (· ∉ names) then
    throw (.integrity node.name (.bottomNotLowered b))
  let some handler := r.table.get? node.opType
    | throw (.unsupportedOperation node.name node.opType r.device)
  let operations ← (handler node (shapeOf done) r.params r.batch).mapError
    fun m => .lowering node.name (.handler m)
  if h : operations = [] then throw (.lowering node.name .noOperations)
  else
    checkInputs r.params node ((done.flatMap Stage.operations).map Operation.name) operations
    return ⟨node, operations, h⟩

def lowerNodes (r : Recipe) (done : List Stage) : List Node → Except ProgramError (List Stage)
  | [] => .ok done
  | n :: ns => do
    let stage ← lowerNode r done n
    lowerNodes r (done ++ [stage]) ns

def lower (name : String) (nodes : List Node) (r : Recipe) : Except ProgramError Program := do
  return ⟨name, r.device, r.batch, r.params, ← lowerNodes r [] nodes⟩

end Program

end Dataflow
