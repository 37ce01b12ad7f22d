/-!
# Graph errors

Everything that can be wrong with a list of nodes or with the partitions reported for a graph.
-/

namespace Dataflow

/-- How an edge is recorded on one of its ends only. -/
inductive EdgeGap where
  | missingTop
  | missingBottom
deriving DecidableEq, Repr

namespace EdgeGap

def message : EdgeGap → String
  | missingTop => "consumer missing from producer tops"
  | missingBottom => "producer missing from consumer bottoms"

end EdgeGap

/-- Why the description of a partition cannot be used. -/
inductive PartitionFlaw where
  | nameTaken (id : String)
  | shapeCount (shapes outputs : Nat)
  | hiddenRead (consumer bottom : String)
deriving DecidableEq, Repr

namespace PartitionFlaw

def message : PartitionFlaw → String
  | nameTaken id => s!"partition id '{id}' is already the name of a node in the graph"
  | shapeCount n m => s!"{n} output shapes declared for {m} outputs"
  | hiddenRead c b => s!"node '{c}' reads interior node '{b}' which is not a partition output"

end PartitionFlaw

inductive GraphError where
  | duplicateNode (name : String)
  | danglingBottom (node bottom : String)
  | inconsistentEdge (producer consumer : String) (gap : EdgeGap)
  | cycle (node : String)
  | notFound (name : String)
  | unknownPartition (node partition : String)
  | invalidPartition (partition : String) (flaw : PartitionFlaw)
deriving DecidableEq, Repr

namespace GraphError

def message : GraphError → String
  | duplicateNode n => s!"duplicate node name '{n}': node names must be unique"
  | danglingBottom n b => s!"node '{n}' lists bottom '{b}' which is not part of the graph"
  | inconsistentEdge p c gap => s!"edge {p} -> {c} is not mirrored: {gap.message}"
  | cycle n => s!"graph contains a cycle through node '{n}'"
  | notFound n => s!"node '{n}' not found"
  | unknownPartition n p =>
    s!"node '{n}' belongs to partition '{p}' which the partitioner did not report"
  | invalidPartition p flaw => s!"partition '{p}' is malformed: {flaw.message}"

end GraphError

end Dataflow
