import Dataflow.Attr
import Dataflow.Tensor.Basic

/-!
# Nodes

A node of a dataflow graph: its operation type and marker tags, the shapes it declares, the names
of the nodes it reads (`bottoms`) and of those that read it (`tops`), its attributes and constant
tensors, and the device and partition it is assigned to.
-/

namespace Dataflow

/-- The declared dimensions of one output. A negative one is left open. -/
structure TensorShape where
  dims : List Int
deriving DecidableEq, Inhabited

namespace TensorShape

def rank (s : TensorShape) : Nat := s.dims.length

/-- Fills in the batch size where it is known and the leading dimension is left open. -/
def withBatch (s : TensorShape) (batch : Int) : TensorShape :=
  match s.dims with
  | d :: ds => if 0 < batch ∧ d < 0 then ⟨batch :: ds⟩ else s
  | [] => s

/-- Whether concrete dimensions are ones that the declaration leaves open or names. -/
def admits (s : TensorShape) (dims : List Nat) : Bool :=
  s.dims.length == dims.length &&
    (s.dims.zip dims).all fun p => decide (p.1 < 0) || p.1 == (p.2 : Int)

def display (s : TensorShape) : String := Text.showInts s.dims

end TensorShape

/-- The outputs a node declares: a single one, or a tuple. -/
inductive Shapes where
  | tensor (shape : TensorShape)
  | tuple (items : List TensorShape)
deriving DecidableEq, Inhabited

namespace Shapes

def count : Shapes → Nat
  | tensor _ => 1
  | tuple items => items.length

def isEmpty (s : Shapes) : Bool := s.count == 0

def isTuple : Shapes → Bool
  | tensor _ => false
  | tuple _ => true

/-- The shape of output `i`; a single output is number zero. -/
def get? : Shapes → Nat → Option TensorShape
  | tensor s, i => if i = 0 then some s else none
  | tuple items, i => items[i]?

def asTensor? : Shapes → Option TensorShape
  | tensor s => some s
  | tuple _ => none

end Shapes

structure Node where
  name : String
  /-- The operation type first, then marker tags. -/
  types : List String
  shapes : Shapes
  /-- The nodes read, in the order of the operation's inputs. -/
  bottoms : List String := []
  /-- The nodes that read this one. -/
  tops : List String := []
  /-- The operations of the model source that the node stands for. -/
  layer : List String := []
  attrs : Attrs := .empty
  /-- Constant tensors, such as weights. -/
  data : List Tensor := []
  /-- The partition the node belongs to. -/
  subgraph : Option String := none
  /-- The device the node is assigned to. -/
  target : String := "cpu"
  /-- Whether the node was made by a rewrite. -/
  internal : Bool := false
deriving Inhabited

namespace Node

def inputTypes : List String := ["Input", "StrInput"]

/-- The tag of nodes whose value the graph delivers. -/
def outputTag : String := "Output"

/-- The operation type of nodes that read one output of a tuple. -/
def accessorType : String := "TupleGetItem"

/-- The node of a name, a type and shapes, which stands for the source operation of its name. -/
def make (name opType : String) (shapes : Shapes) : Node :=
  { name, types := [opType], shapes, layer := [name] }

/-- The first of the types; the empty text if there is none. -/
def opType (n : Node) : String := n.types.headD ""

def hasType (n : Node) (tag : String) : Bool := n.types.contains tag

def isInput (n : Node) : Bool := inputTypes.contains n.opType

def isOutput (n : Node) : Bool := n.hasType outputTag

def attr? (n : Node) (key : String) : Option Attr := n.attrs.get? key

def withAttr (n : Node) (key : String) (value : Attr) : Node :=
  { n with attrs := n.attrs.insert key value }

/-- Assigns the node to a partition, to be run on `target`. -/
def inPartition (n : Node) (id target : String) : Node :=
  { n with subgraph := some id, target }

def asOutput (n : Node) : Node :=
  if n.isOutput then n else { n with types := n.types ++ [outputTag] }

def same (a b : Node) : Bool :=
  a.name == b.name && a.types == b.types && a.shapes == b.shapes && a.bottoms == b.bottoms &&
    a.tops == b.tops && a.layer == b.layer && Attr.sameMap a.attrs b.attrs &&
    (a.data.length == b.data.length && (a.data.zip b.data).all fun p => p.1.same p.2) &&
    a.subgraph == b.subgraph && a.target == b.target && a.internal == b.internal

end Node

end Dataflow
