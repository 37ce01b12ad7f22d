import Dataflow.Graph.Basic

/-!
# Drafts

A graph under construction: nodes say what they read, and the graph that is built from them
records every edge on its other end as well, stands in topological order and is valid.
-/

namespace Dataflow

/-- The nodes of a graph under construction, in the order they were given. -/
structure Draft where
  name : String
  nodes : List Node := []
  compilerOutput : Option CompilerOutput := none

namespace Draft

def push (d : Draft) (n : Node) : Draft := { d with nodes := d.nodes ++ [n] }

/-- Lists a reader among the tops of the node at a position, unless it stands there already. -/
def addTop (nodes : List Node) (edge : Nat × String) : List Node :=
  nodes.modify edge.1 fun p =>
    if edge.2 ∈ p.tops then p else { p with tops := p.tops ++ [edge.2] }

/-- Gives every node its readers as tops, whatever tops it came with. -/
def link (nodes : List Node) : Except GraphError (List Node) := do
  let cleared := nodes.map fun n => { n with tops := [] }
  let position ← Node.positions cleared
  let found ← Node.edges position (cleared.map fun n => (n, n.name))
  return found.foldl addTop cleared

def build (d : Draft) : Except GraphError Graph := do
  let linked ← link d.nodes
  let sorted ← Node.sortTopologically linked
  let g ← Graph.ofNodes d.name sorted d.compilerOutput
  g.validate
  return g

end Draft

end Dataflow
