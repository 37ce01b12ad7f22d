import Dataflow.Cpu.Lowering
import Dataflow.Program.Execution
import Dataflow.Substitution.Build

/-!
# Running collapsed partitions

A collapsed node computes what the interior of its partition computes. Every interior is lowered
to a program of its own, and the handler of collapsed nodes feeds it the node's inputs under their
interior names, runs it, and returns the tuple of its outputs.
-/

namespace Dataflow.Program

def interiors (partitions : Dict Partition) : Except ProgramError (Dict Program) := do
  let programs ← partitions.entries.mapM fun e =>
    (lower e.1 e.2.interior ⟨"cpu", Cpu.table, .empty, openBatch⟩).map fun p => (e.1, p)
  return ⟨programs⟩

/-- A list of names among the attributes of a node; none if there is no such list. -/
def namesAttr (node : Node) (key : String) : List String :=
  ((node.attr? key).bind Attr.asStrs?).getD []

/-- Runs an interior: feeds the values under the names of its inputs and collects the tensors of
its outputs. -/
def runInterior (p : Program) (inputNames outputNames : List String) (values : List Value) :
    Except (Failure String) Value := do
  let fed ← (inputNames.zip values).mapM fun x =>
    (x.2.asTensor.map fun t => (x.1, t)).mapError fun e => .error e.message
  let outputs ← (p.run (.ofList fed) outputNames none).mapError (.map ProgramError.message)
  let tensors ← outputs.mapM fun v => v.asTensor.mapError fun e => .error e.message
  return .tuple tensors

/-- The handler of collapsed nodes whose interiors are the given programs. -/
def collapsedLowering (programs : Dict Program) : Lowering := fun node _ _ _ =>
  match programs.get? node.name with
  | none => .error "unknown partition"
  | some p =>
    let inputNames := namesAttr node "input_names"
    .ok [{
      name := node.name
      opType := node.opType
      inputs := inputNames
      shape := node.shapes
      forward := runInterior p inputNames (namesAttr node "output_names") }]

def nestedTable (programs : Dict Program) (collapsedType : String) : DispatchTable :=
  Cpu.table.register collapsedType (collapsedLowering programs)

end Dataflow.Program
