import Dataflow.Graph.Error
import Dataflow.Node

/-!
# Topological order

Arranges nodes so that each stands after the nodes it reads. Every position counts the bottoms it
still waits for. The positions that wait for nothing are ready, and the smallest of them goes next,
which takes one off the count of a reader for every time the reader lists the node. So the order is
the least one by position, and a list that is in order already stays as it is.

Positions that keep a count lie on a cycle or behind one; going from such a position to a producer
that keeps a count as well, and on from there, comes back to a position it has passed, which is then
on a cycle.
-/

namespace Dataflow

namespace Node

/-! ## Positions and edges -/

def enterPositions (position : Dict Nat) (i : Nat) : List Node → Except GraphError (Dict Nat)
  | [] => .ok position
  | n :: ns =>
    if position.contains n.name then .error (.duplicateNode n.name)
    else enterPositions (position.insert n.name i) (i + 1) ns

def positions (nodes : List Node) : Except GraphError (Dict Nat) := enterPositions .empty 0 nodes

/-- The position that a bottom of the node leads to. -/
def producer (position : Dict Nat) (n : Node) (bottom : String) : Except GraphError Nat :=
  match position.get? bottom with
  | some i => .ok i
  | none => .error (.danglingBottom n.name bottom)

/-- One edge for every bottom of every node, from the position that is read. The other end is what
the node is paired with. -/
def edges (position : Dict Nat) (nodes : List (Node × α)) : Except GraphError (List (Nat × α)) := do
  let found ← nodes.mapM fun x =>
    x.1.bottoms.mapM fun b => (producer position x.1 b).map fun i => (i, x.2)
  return found.flatten

/-! ## Counting down -/

/-- Puts a position into a queue in which the smaller ones come first. -/
def enqueue (i : Nat) : List Nat → List Nat
  | [] => [i]
  | j :: js => if i ≤ j then i :: j :: js else j :: enqueue i js

/-- The readers of every position, and how many bottoms it has, repeated ones included. -/
structure Degrees where
  consumers : List (List Nat)
  indegree : List Nat

namespace Degrees

def addEdge (d : Degrees) (edge : Nat × Nat) : Degrees where
  consumers := d.consumers.modify edge.1 (· ++ [edge.2])
  indegree := d.indegree.modify edge.2 (· + 1)

/-- The degrees of so many positions with the given edges. -/
def ofEdges (size : Nat) (edges : List (Nat × Nat)) : Degrees :=
  edges.foldl addEdge ⟨List.replicate size [], List.replicate size 0⟩

end Degrees

/-- The positions that are ready, and how many of its bottoms each position still waits for. -/
structure Frontier where
  ready : List Nat
  indegree : List Nat

namespace Frontier

def start (indegree : List Nat) : Frontier where
  ready := (List.range indegree.length).filter fun i => indegree[i]? = some 0
  indegree := indegree

/-- One bottom of a reader is placed. The reader is ready when this was the last one. -/
def release (f : Frontier) (consumer : Nat) : Frontier :=
  match f.indegree[consumer]? with
  | some (d + 1) =>
    { ready := if d = 0 then enqueue consumer f.ready else f.ready
      indegree := f.indegree.set consumer d }
  | _ => f

/-- Places the smallest position that is ready, with the frontier behind it. -/
def pop (consumers : List (List Nat)) (f : Frontier) : Option (Nat × Frontier) :=
  match f.ready with
  | [] => none
  | i :: ready => some (i, (consumers.getD i []).foldl release { f with ready })

/-- The positions that are ready or may still become so. -/
def work (f : Frontier) : Nat := f.ready.length + f.indegree.countP (0 < ·)

theorem length_enqueue (i : Nat) (js : List Nat) : (enqueue i js).length = js.length + 1 := by
  induction js with
  | nil => rfl
  | cons j js ih =>
    rw [enqueue]
    split
    · rfl
    · rw [List.length_cons, ih, List.length_cons]

theorem work_release (f : Frontier) (consumer : Nat) : (f.release consumer).work = f.work := by
  unfold release
  split
  · next d hd =>
    obtain ⟨hlt, he⟩ := List.getElem?_eq_some_iff.1 hd
    have hpos : 0 < f.indegree.countP (0 < ·) :=
      List.countP_pos_iff.2 ⟨d + 1, List.mem_of_getElem? hd, by simp⟩
    rw [work, List.countP_set hlt, he]
    cases d with
    | zero =>
      rw [if_pos rfl, length_enqueue, work]
      simp
      omega
    | succ d =>
      rw [if_neg (Nat.succ_ne_zero d), work]
      simp
      omega
  · rfl

theorem work_of_pop {consumers : List (List Nat)} {f g : Frontier} {i : Nat}
    (h : f.pop consumers = some (i, g)) : f.work = g.work + 1 := by
  have hfold : ∀ (cs : List Nat) (f : Frontier), (cs.foldl release f).work = f.work := by
    intro cs
    induction cs with
    | nil => exact fun _ => rfl
    | cons c cs ih => exact fun f => (ih _).trans (work_release f c)
  unfold pop at h
  split at h
  · cases h
  · next hr =>
    cases h
    rw [hfold]
    simp only [work, hr, List.length_cons]
    omega

/-- Places positions for as long as one is ready: the positions in the order they are placed, and
what the others still wait for. -/
def drain (consumers : List (List Nat)) (f : Frontier) : List Nat × List Nat :=
  match _h : f.pop consumers with
  | none => ([], f.indegree)
  | some (i, g) =>
    let (order, indegree) := drain consumers g
    (i :: order, indegree)
termination_by f.work
decreasing_by
  have := work_of_pop _h
  omega

end Frontier

/-! ## Cycles -/

/-- The first position that the node reads and that still waits. -/
def stuckProducer? (position : Dict Nat) (indegree : List Nat) (n : Node) : Option Nat :=
  (n.bottoms.filterMap position.get?).find? fun i => 0 < indegree.getD i 0

theorem count_set_true {visited : List Bool} {i : Nat} (h : visited[i]? = some false) :
    visited.count false = (visited.set i true).count false + 1 := by
  obtain ⟨hlt, he⟩ := List.getElem?_eq_some_iff.1 h
  have hpos : 0 < visited.count false := List.count_pos_iff.2 (List.mem_of_getElem? h)
  rw [List.count_set hlt, he]
  simp
  omega

/-- Follows producers that wait, until a position comes up that has been visited already; the name
of the node there. -/
def revisited (nodes : List Node) (position : Dict Nat) (indegree : List Nat)
    (visited : List Bool) (current : Nat) : String :=
  match nodes[current]? with
  | none => ""
  | some n =>
    match _h : visited[current]? with
    | some false =>
      match stuckProducer? position indegree n with
      | none => n.name
      | some next => revisited nodes position indegree (visited.set current true) next
    | _ => n.name
termination_by visited.count false
decreasing_by
  have := count_set_true _h
  omega

/-- The name of a node on a cycle, given what the positions that were never placed wait for. -/
def onCycle (nodes : List Node) (position : Dict Nat) (indegree : List Nat) : String :=
  match indegree.findIdx? (0 < ·) with
  | none => ""
  | some first =>
    revisited nodes position indegree (List.replicate nodes.length false) first

/-! ## Sorting -/

/-- The positions of the nodes in topological order. -/
def topologicalOrder (nodes : List Node) : Except GraphError (List Nat) := do
  let position ← positions nodes
  let found ← edges position nodes.zipIdx
  let degrees := Degrees.ofEdges nodes.length found
  let (order, indegree) := (Frontier.start degrees.indegree).drain degrees.consumers
  if order.length ≠ nodes.length then throw (.cycle (onCycle nodes position indegree))
  return order

/-- Takes what stands at the given positions out of its slots. -/
def takeSlots (slots : List (Option Node)) : List Nat → List Node
  | [] => []
  | i :: is =>
    match slots[i]? with
    | some (some n) => n :: takeSlots (slots.set i none) is
    | _ => takeSlots slots is

/-- The nodes in topological order. -/
def sortTopologically (nodes : List Node) : Except GraphError (List Node) := do
  let order ← topologicalOrder nodes
  return takeSlots (nodes.map some) order

def ready (placed : List String) (n : Node) : Bool := n.bottoms.all (· ∈ placed)

end Node

end Dataflow
