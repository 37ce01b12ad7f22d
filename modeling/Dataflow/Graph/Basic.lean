import Dataflow.Graph.Order

/-!
# Graphs

An ordered list of nodes with distinct names, each of which reads nodes of the list only. A graph
may carry the artifacts of an earlier compilation. Whether the edges are recorded on both ends and
run in no circle is a further question, which `validate` answers.
-/

namespace Dataflow

/-- The names that a compiled partition uses for its inputs and outputs. -/
structure Artifact where
  inMap : Dict String
  outMap : Dict String
deriving DecidableEq, Inhabited

/-- The artifacts of an earlier compilation, by partition. -/
structure CompilerOutput where
  artifacts : Dict Artifact
deriving DecidableEq, Inhabited

namespace CompilerOutput

def empty : CompilerOutput := ⟨.empty⟩

def insert (o : CompilerOutput) (id : String) (a : Artifact) : CompilerOutput :=
  ⟨o.artifacts.insert id a⟩

def get? (o : CompilerOutput) (id : String) : Option Artifact := o.artifacts.get? id

def inMap? (o : CompilerOutput) (id : String) : Option (Dict String) :=
  (o.get? id).map Artifact.inMap

def outMap? (o : CompilerOutput) (id : String) : Option (Dict String) :=
  (o.get? id).map Artifact.outMap

end CompilerOutput

/-- A list of nodes with distinct names and resolvable bottoms. -/
structure Graph where
  name : String
  nodes : List Node
  compilerOutput : Option CompilerOutput
  nodup : (nodes.map Node.name).Nodup
  closed : ∀ n ∈ nodes, ∀ b ∈ n.bottoms, b ∈ nodes.map Node.name

namespace Node

/-- Entered nodes have distinct names, none of them entered before, and each name leads to the
position of its node. -/
theorem enterPositions_eq_ok {position index : Dict Nat} {i : Nat} {nodes : List Node}
    (h : enterPositions position i nodes = .ok index) :
    (nodes.map name).Nodup ∧ (∀ n ∈ nodes, position.get? n.name = none) ∧
      ∀ b, index.get? b = if b ∈ nodes.map name then some (i + (nodes.map name).idxOf b)
        else position.get? b := by
  induction nodes generalizing position i with
  | nil =>
    cases h
    simp
  | cons n ns ih =>
    rw [enterPositions] at h
    split at h
    · cases h
    · next hn =>
      obtain ⟨hd, hfree, hget⟩ := ih h
      have hout : n.name ∉ ns.map name := by
        intro hm
        obtain ⟨m, hm, he⟩ := List.mem_map.1 hm
        have := hfree m hm
        rw [he, Dict.get?_insert_self] at this
        cases this
      refine ⟨List.nodup_cons.2 ⟨hout, hd⟩, ?_, ?_⟩
      · rw [List.forall_mem_cons]
        refine ⟨by simpa [Dict.contains] using hn, fun m hm => ?_⟩
        have hne : m.name ≠ n.name := fun he => hout (he ▸ List.mem_map_of_mem hm)
        rw [← hfree m hm, Dict.get?_insert_of_ne _ hne]
      · intro b
        rw [hget b, List.map_cons]
        by_cases hb : b = n.name
        · subst hb
          rw [if_neg hout, if_pos List.mem_cons_self, Dict.get?_insert_self, List.idxOf_cons_self,
            Nat.add_zero]
        · have hidx : (n.name :: ns.map name).idxOf b = (ns.map name).idxOf b + 1 := by
            rw [List.idxOf_cons, beq_false_of_ne (Ne.symm hb), cond_false]
          simp only [List.mem_cons, hb, false_or, hidx, Dict.get?_insert_of_ne _ hb]
          split
          · congr 1
            omega
          · rfl

theorem nodup_of_positions {nodes : List Node} {index : Dict Nat}
    (h : positions nodes = .ok index) : (nodes.map name).Nodup :=
  (enterPositions_eq_ok h).1

theorem get?_of_positions {nodes : List Node} {index : Dict Nat} (h : positions nodes = .ok index)
    (b : String) : index.get? b =
      if b ∈ nodes.map name then some ((nodes.map name).idxOf b) else none := by
  have hget := (enterPositions_eq_ok h).2.2 b
  rwa [Nat.zero_add, Dict.get?_empty] at hget

/-- The first bottom, in the order of the list, that leads to no position. -/
def firstDangling? (index : Dict Nat) (nodes : List Node) : Option (String × String) :=
  nodes.findSome? fun n => (n.bottoms.find? fun b => !index.contains b).map fun b => (n.name, b)

theorem firstDangling?_eq_none_iff {nodes : List Node} {index : Dict Nat}
    (h : positions nodes = .ok index) : firstDangling? index nodes = none ↔
      ∀ n ∈ nodes, ∀ b ∈ n.bottoms, b ∈ nodes.map name := by
  rw [firstDangling?, List.findSome?_eq_none_iff]
  refine forall₂_congr fun n _ => ?_
  rw [Option.map_eq_none_iff, List.find?_eq_none]
  refine forall₂_congr fun b _ => ?_
  rw [Dict.contains, get?_of_positions h]
  split <;> simp [*]

end Node

namespace Graph

instance : Inhabited Graph := ⟨⟨"", [], none, by simp, by simp⟩⟩

/-- The graph of a list of nodes, in the given order. A repeated name is reported before a bottom
that names no node. -/
def ofNodes (name : String) (nodes : List Node) (output : Option CompilerOutput) :
    Except GraphError Graph :=
  match hd : Node.positions nodes with
  | .error e => .error e
  | .ok index =>
    match hc : Node.firstDangling? index nodes with
    | some (n, b) => .error (.danglingBottom n b)
    | none =>
      .ok ⟨name, nodes, output, Node.nodup_of_positions hd,
        (Node.firstDangling?_eq_none_iff hd).1 hc⟩

def withCompilerOutput (g : Graph) (output : Option CompilerOutput) : Graph :=
  { g with compilerOutput := output }

def names (g : Graph) : List String := g.nodes.map Node.name

def get? (g : Graph) (name : String) : Option Node := g.nodes.find? (·.name = name)

def contains (g : Graph) (name : String) : Bool := (g.get? name).isSome

def node (g : Graph) (name : String) : Except GraphError Node :=
  match g.get? name with
  | some n => .ok n
  | none => .error (.notFound name)

def isCompiled (g : Graph) : Bool := g.compilerOutput.isSome

def inputNames (g : Graph) : List String := (g.nodes.filter Node.isInput).map Node.name

def outputNames (g : Graph) : List String := (g.nodes.filter Node.isOutput).map Node.name

def checkBottoms (g : Graph) (n : Node) : Except GraphError Unit :=
  n.bottoms.forM fun b =>
    match g.get? b with
    | none => .error (.danglingBottom n.name b)
    | some p => if n.name ∈ p.tops then .ok () else .error (.inconsistentEdge b n.name .missingTop)

def checkTops (g : Graph) (n : Node) : Except GraphError Unit :=
  n.tops.forM fun t =>
    match g.get? t with
    | none => .error (.notFound t)
    | some c =>
      if n.name ∈ c.bottoms then .ok () else .error (.inconsistentEdge n.name t .missingBottom)

/-- Checks that every edge is recorded on both ends and that there is no cycle. -/
def validate (g : Graph) : Except GraphError Unit := do
  g.nodes.forM fun n => do
    g.checkBottoms n
    g.checkTops n
  discard (Node.topologicalOrder g.nodes)

/-- Each node stands after the nodes it reads, given those in front of the list. -/
def orderedAfter : (seen : List String) → List Node → Bool
  | _, [] => true
  | seen, n :: ns => n.ready seen && orderedAfter (n.name :: seen) ns

def isTopologicallyOrdered (g : Graph) : Bool := orderedAfter [] g.nodes

def sorted (g : Graph) : Except GraphError Graph := do
  ofNodes g.name (← Node.sortTopologically g.nodes) g.compilerOutput

def same (a b : Graph) : Bool :=
  a.name == b.name && a.nodes.length == b.nodes.length &&
    ((a.nodes.zip b.nodes).all fun p => p.1.same p.2) && a.compilerOutput == b.compilerOutput

end Graph

end Dataflow
