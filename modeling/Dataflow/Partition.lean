import Dataflow.Graph.Basic

/-!
# Partitions

A partition is the part of a graph that one device takes over, described by what crosses its
boundary: the nodes it reads from outside, the members whose values leave it, and a snapshot of
its interior in which the outside producers are stood in for by input nodes.

`Partition.tagged` reads the partitions off the tags of the nodes. Membership is by tag; a member
is an output when a node outside reads it or nobody does.
-/

namespace Dataflow

structure Partition where
  id : String
  target : String
  /-- The outside nodes that members read. -/
  bottoms : List String
  /-- The outside nodes that read members. -/
  tops : List String
  /-- The interior names under which the inputs arrive. -/
  inputNames : List String
  /-- The members whose values leave the partition, in output order. -/
  outputNames : List String
  /-- The nodes of the interior. -/
  interior : List Node
  /-- The outside readers of each output. -/
  readers : Dict (List String)
  /-- The declared shape of each output, in output order. -/
  shapes : List TensorShape
deriving Inhabited

/-- Why the tags of a graph describe no partitions. -/
inductive TagError where
  | mixedTargets (id target : String) (otherTarget other : String)
  | tupleOutput (id name : String)
  | graph (error : GraphError)
deriving DecidableEq, Repr

namespace TagError

def message : TagError → String
  | mixedTargets id target otherTarget other =>
    s!"partition '{id}' mixes targets '{target}' and '{otherTarget}' (node '{other}')"
  | tupleOutput id name => s!"partition '{id}' output '{name}' has multiple outputs itself"
  | graph e => e.message

end TagError

namespace Partition

def subgraph (p : Partition) : Except GraphError Graph :=
  Graph.ofNodes p.id p.interior none

def members (g : Graph) (id : String) : List Node :=
  g.nodes.filter fun n => n.subgraph == some id

def tags (g : Graph) : List String :=
  (Dict.ofList (g.nodes.filterMap fun n => n.subgraph.map fun id => (id, ()))).keys

def outsideReaders (inside : List String) (n : Node) : List String :=
  n.tops.filter (· ∉ inside)

def leaves (inside : List String) (n : Node) : Bool :=
  n.tops.isEmpty || !(outsideReaders inside n).isEmpty

/-- The outside nodes that members read, in order of first use. -/
def outsideProducers (inside : List String) (members : List Node) : List String :=
  (members.flatMap fun n => n.bottoms.filter (· ∉ inside)).eraseDups

/-- The input node that stands for the outside node `p` in the interior. -/
def standIn (id target : String) (inside : List String) (p : Node) : Node :=
  { name := p.name
    types := ["Input"]
    shapes := .tensor ((p.shapes.get? 0).getD ⟨[]⟩)
    tops := p.tops.filter (· ∈ inside)
    layer := p.layer
    subgraph := some id
    target }

/-- A member with the readers it keeps in the interior. -/
def interiorNode (inside : List String) (n : Node) : Node :=
  { n with tops := n.tops.filter (· ∈ inside) }

def summarize (g : Graph) (id : String) : Except TagError Partition := do
  let members := members g id
  let inside := members.map Node.name
  let target := (members.head?.map Node.target).getD ""
  if let some other := members.find? (·.target ≠ target) then
    throw (.mixedTargets id target other.target other.name)
  let bottoms := outsideProducers inside members
  let outputs := members.filter (leaves inside)
  let shapes ← outputs.mapM fun n =>
    match n.shapes.asTensor? with
    | some s => .ok s
    | none => .error (.tupleOutput id n.name)
  let standIns ← bottoms.mapM fun b =>
    ((g.node b).map (standIn id target inside)).mapError .graph
  return {
    id, target, bottoms, shapes
    tops := (outputs.flatMap (outsideReaders inside)).eraseDups
    inputNames := bottoms
    outputNames := outputs.map Node.name
    interior := standIns ++ members.map (interiorNode inside)
    readers := .ofList (outputs.map fun n => (n.name, outsideReaders inside n)) }

/-- The partitions that the tags of a graph describe, by tag. -/
def tagged (g : Graph) : Except TagError (Dict Partition) := do
  let ps ← (tags g).mapM fun id => (summarize g id).map fun p => (id, p)
  return ⟨ps⟩

end Partition

end Dataflow
