import Dataflow.Node
import Dataflow.Tensor.Value

/-!
# Operations

The executable steps that a node is lowered to, and the tables that say how. A handler lowers one
node, knowing the output shapes of the nodes lowered before it, the parameters and the batch size;
it may fail with a text of its own. An operation reads the values of its inputs by name: what an
earlier operation computed, a parameter, or, under its own name, a tensor that is fed.
-/

namespace Dataflow

/-- An executable step. Its value is taken to be a function of its inputs: an operation keeps no
state from one run to the next, and sees nothing but the values it reads. -/
structure Operation where
  name : String
  opType : String
  inputs : List String
  /-- The output shapes as far as they are known before a run. -/
  shape : Shapes
  forward : List Value → Except (Failure String) Value
  /-- What calibration looks at in place of the output; `none` for the output itself. -/
  calibration : List Value → Except (Failure String) (Option Value) := fun _ => .ok none

namespace Operation

/-- The operations whose calibration view may differ from their output. -/
def calibratedType : String := "Convolution"

end Operation

abbrev Lowering :=
  Node → (shapeOf : String → Option Shapes) → (params : Dict Tensor) → (batch : Int) →
    Except String (List Operation)

structure DispatchTable where
  handlers : Dict Lowering

namespace DispatchTable

def empty : DispatchTable := ⟨.empty⟩

def register (t : DispatchTable) (opType : String) (handler : Lowering) : DispatchTable :=
  ⟨t.handlers.insert opType handler⟩

def get? (t : DispatchTable) (opType : String) : Option Lowering := t.handlers.get? opType

def contains (t : DispatchTable) (opType : String) : Bool := t.handlers.contains opType

def opTypes (t : DispatchTable) : List String := t.handlers.keys

end DispatchTable

/-! ## Descriptions for people -/

section

open Text

def describe (name : String) (fields : List (String × String)) : String :=
  name ++ " \x7b " ++ ", ".intercalate (fields.map fun f => f.1 ++ ": " ++ f.2) ++ " \x7d"

def TensorShape.describe (s : TensorShape) : String := "TensorShape(" ++ s.display ++ ")"

def Shapes.describe : Shapes → String
  | tensor s => "Tensor(" ++ s.describe ++ ")"
  | tuple items => "Tuple(" ++ bracket (items.map TensorShape.describe) ++ ")"

def Operation.describe (o : Operation) : String :=
  Dataflow.describe "RtOp" [("name", quote o.name), ("op_type", quote o.opType),
    ("inputs", quoteList o.inputs), ("shape", o.shape.describe)]

def DispatchTable.describe (t : DispatchTable) : String :=
  Dataflow.describe "DispatchTable" [("op_types", quoteList t.opTypes)]

end

end Dataflow
