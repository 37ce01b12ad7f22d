import Dataflow.Partition
import Dataflow.Substitution.Options

/-!
# Partition substitution

Replaces every partition of one device by a single collapsed node. The outputs of the partition
become accessor nodes that keep the names of the members they stand for, so whoever read a member
goes on reading the same name. The edges across the boundary are recorded anew, and the result is
put into topological order.

A build first hands the graph to a layout pass and then asks a partitioner about the result; both
are functions that may fail with a text of their own.
-/

namespace Dataflow

abbrev LayoutPass := Graph → (target : String) → Layout → Except String Graph

abbrev Partitioner := Graph → Except String (Dict Partition)

def LayoutPass.identity : LayoutPass := fun g _ _ => .ok g

def Partitioner.byTag : Partitioner := fun g => (Partition.tagged g).mapError TagError.message

/-- The part of a build that failed for reasons of its own. -/
inductive Collaborator where
  | layoutPass
  | partitioner
deriving DecidableEq, Repr

inductive BuildError where
  | config (error : ConfigError)
  | graph (error : GraphError)
  | collaborator (part : Collaborator) (message : String)
deriving DecidableEq, Repr

namespace BuildError

def message : BuildError → String
  | config e => s!"invalid build configuration: {e.message}"
  | graph e => s!"graph integrity violated: {e.message}"
  | collaborator .layoutPass m => s!"layout pass failed: {m}"
  | collaborator .partitioner m => s!"partitioner failed: {m}"

end BuildError

structure BuildReport where
  /-- The tags of the collapsed partitions, in the order of their first members. -/
  collapsed : List String
  /-- How many nodes each collapsed partition had. -/
  consumed : Dict Nat
  /-- The names of the accessor nodes, in the order they were made. -/
  accessors : List String
deriving DecidableEq, Inhabited

namespace Substitution

/-- A partition that was collapsed, with the names of its nodes that were dropped so far. -/
structure Consumed where
  partition : Partition
  members : List String

/-- How far the pass over the nodes of a graph has come. -/
structure Progress where
  /-- The collapsed partitions, by tag. -/
  consumed : Dict Consumed := .empty
  /-- The accessor of every output of a collapsed partition. -/
  accessorOf : Dict String := .empty
  collapsed : List String := []
  accessors : List String := []
  net : List Node := []

namespace Progress

def keep (s : Progress) (n : Node) : Progress := { s with net := s.net ++ [n] }

def drop (s : Progress) (id : String) (x : Consumed) (n : Node) : Progress :=
  { s with consumed := s.consumed.insert id { x with members := x.members.insert n.name } }

/-- Puts the collapsed node `x` of a partition, and the accessors behind it, in place of the first
member. -/
def collapse (s : Progress) (id : String) (p : Partition) (first : String) (x : Node)
    (accessors : List Node) : Progress :=
  let names := accessors.map Node.name
  { consumed := s.consumed.insert id ⟨p, [first]⟩
    accessorOf := (p.outputNames.zip names).foldl (fun d e => d.insert e.1 e.2) s.accessorOf
    collapsed := s.collapsed ++ [id]
    accessors := s.accessors ++ names
    net := s.net ++ x :: accessors }

end Progress

/-! ## Relinking -/

/-- Points the tops that are members of a partition at its collapsed node. -/
def relinkTops (id : String) (members : List String) (n : Node) : Node :=
  { n with tops := (n.tops.map fun t => if t ∈ members then id else t).eraseDups }

/-- Points the bottoms that are members of a partition at their accessors. A node outside may read
those members only that have one. -/
def relinkBottoms (accessorOf : Dict String) (id : String) (members : List String) (n : Node) :
    Except GraphError Node := do
  let bottoms ← n.bottoms.mapM fun b =>
    if b ∈ members then
      match accessorOf.get? b with
      | some accessor => .ok accessor
      | none => .error (.invalidPartition id (.hiddenRead n.name b))
    else .ok b
  return { n with bottoms }

/-- Changes the node that stands at the position of a name. Nothing changes where the name has no
position. -/
def update (position : Dict Nat) (f : Node → Except GraphError Node) (net : List Node)
    (name : String) : Except GraphError (List Node) :=
  match position.get? name with
  | none => .ok net
  | some i =>
    match net[i]? with
    | none => .ok net
    | some n => (f n).map (net.set i)

namespace Progress

variable (s : Progress)

/-- Relinks the outside producers of a partition, then its outside readers. -/
def relinkAcross (position : Dict Nat) (net : List Node) (e : String × Consumed) :
    Except GraphError (List Node) := do
  let net ← e.2.partition.bottoms.foldlM
    (update position fun n => .ok (relinkTops e.1 e.2.members n)) net
  e.2.partition.tops.foldlM (update position (relinkBottoms s.accessorOf e.1 e.2.members)) net

/-- Records the edges across the boundaries of the collapsed partitions, in tag order. Of several
nodes with one name the last is changed. -/
def relink : Except GraphError (List Node) :=
  s.consumed.entries.foldlM (s.relinkAcross (.ofList (s.net.map Node.name).zipIdx)) s.net

def report : BuildReport where
  collapsed := s.collapsed
  consumed := s.consumed.map fun x => x.members.length
  accessors := s.accessors

end Progress

/-! ## The pass -/

/-- A build in progress: what it was asked for, and the graph and partitions it works on. -/
structure Context where
  options : BuildOptions
  compilerOutput : Option CompilerOutput
  graph : Graph
  partitions : Dict Partition

namespace Context

variable (c : Context)

def layers (interior : Graph) (names : List String) : Except GraphError Attr := do
  let entries ← names.mapM fun n => (interior.node n).map fun x => (n, Attr.strs x.layer)
  return .map (.ofList entries)

def collapsedAttrs (p : Partition) (interior : Graph) : Except GraphError Attrs := do
  let inputLayers ← layers interior p.inputNames
  let outputLayers ← layers interior p.outputNames
  let own : Attrs := .ofList
    [("input_names", .strs p.inputNames), ("output_names", .strs p.outputNames),
      ("input_layers", inputLayers), ("output_layers", outputLayers)]
  let all := c.options.extraAttrs.entries.foldl (fun d e => d.insert e.1 e.2) own
  match c.compilerOutput.bind (·.get? p.id) with
  | none => return all
  | some a =>
    return (all.insert "rt_in_map" (.ofTexts a.inMap)).insert "rt_out_map" (.ofTexts a.outMap)

/-- The node that stands for the partition `p`: it takes the name of the partition, which no node
of the graph may have. -/
def collapse (p : Partition) : Except GraphError Node := do
  if c.graph.contains p.id then throw (.invalidPartition p.id (.nameTaken p.id))
  if p.shapes.length ≠ p.outputNames.length then
    throw (.invalidPartition p.id (.shapeCount p.shapes.length p.outputNames.length))
  let interior ← p.subgraph
  let attrs ← c.collapsedAttrs p interior
  return {
    name := p.id
    types := [c.options.collapsedType]
    shapes := .tuple p.shapes
    bottoms := p.bottoms
    tops := p.outputNames
    layer := [p.id]
    attrs
    target := p.target }

/-- The node that reads output `i` of a collapsed partition. It has the name of the output and is
an output of the graph where that was one. -/
def accessor (p : Partition) (output : String) (shape : TensorShape) (i : Nat) : Node :=
  { name := output
    types := Node.accessorType ::
      (if output ∈ c.graph.outputNames then [Node.outputTag] else [])
    shapes := .tensor shape
    bottoms := [p.id]
    tops := (p.readers.get? output).getD []
    layer := [output]
    attrs := .ofList [("index", .int i)]
    internal := true }

def accessors (p : Partition) : List Node :=
  (p.outputNames.zip p.shapes).zipIdx.map fun x => c.accessor p x.1.1 x.1.2 x.2

/-- One step of the pass. A node stays unless its partition is one of the target's. The first node
of such a partition makes room for the whole replacement, and the others are left out. -/
def step (s : Progress) (n : Node) : Except GraphError Progress :=
  match n.subgraph with
  | none => .ok (s.keep n)
  | some id =>
    match s.consumed.get? id with
    | some x => .ok (s.drop id x n)
    | none =>
      match c.partitions.get? id with
      | none => .error (.unknownPartition n.name id)
      | some p =>
        if p.target ≠ c.options.target then .ok (s.keep n)
        else (c.collapse p).map fun x => s.collapse id p n.name x (c.accessors p)

def substitute : Except GraphError Progress := c.graph.nodes.foldlM c.step {}

/-- The rewritten graph, under the name of the graph that the build was given, and the report. -/
def rewrite (name : String) : Except GraphError (Graph × BuildReport) := do
  let s ← c.substitute
  let net ← s.relink
  let g ← Graph.ofNodes name (← Node.sortTopologically net) c.compilerOutput
  return (g, s.report)

end Context

end Substitution

end Dataflow
