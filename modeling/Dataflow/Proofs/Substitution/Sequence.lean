import Dataflow.Proofs.Substitution.Outputs
import Dataflow.Proofs.Substitution.Repetition

/-!
# Sequences of builds

What is left of a graph after builds for several devices. A node of the result represents a node of
the graph, as this node with other tops or as an accessor for it, or it is a collapsed node. Both
are described by the graph that the first build was given: a later build finds the partitions of its
device with the members they had, whose bottoms name what they named, and which are outputs if they
were. `Rewritten` says so; it holds of one build and passes from two sequences for different devices
to the one after the other.
-/

namespace Dataflow

open Dataflow.Partition

namespace Node

def AssignedTo (targets : List String) (n : Node) : Prop :=
  n.subgraph.isSome = true ∧ n.target ∈ targets

/-- The node `x` is the node `m` but for its tops. -/
def Relinked (m x : Node) : Prop := ∃ tops, x = { m with tops }

variable {targets targets' : List String} {m n x : Node}

theorem assignedTo_append : n.AssignedTo (targets ++ targets') ↔
    n.AssignedTo targets ∨ n.AssignedTo targets' := by
  rw [AssignedTo, AssignedTo, AssignedTo, List.mem_append, and_or_left]

theorem notAssignedTo_of_subgraph (h : n.subgraph = none) : ¬n.AssignedTo targets := by
  rintro ⟨hs, -⟩
  rw [h] at hs
  cases hs

theorem Relinked.name_eq (h : m.Relinked x) : x.name = m.name := by
  obtain ⟨_, rfl⟩ := h
  rfl

theorem Relinked.bottoms_eq (h : m.Relinked x) : x.bottoms = m.bottoms := by
  obtain ⟨_, rfl⟩ := h
  rfl

theorem Relinked.trans (h : m.Relinked n) (h' : n.Relinked x) : m.Relinked x := by
  obtain ⟨_, rfl⟩ := h
  obtain ⟨tops, rfl⟩ := h'
  exact ⟨tops, rfl⟩

end Node

namespace Builder

def buildAll (b : Builder) (g : Graph) : List BuildOptions → Except BuildError Graph
  | [] => .ok g
  | o :: os => do
    let (h, _) ← b.build g o
    b.buildAll h os

def targets (os : List BuildOptions) : List String := os.map BuildOptions.target

structure Accesses (id : String) (m x : Node) : Prop where
  name : x.name = m.name
  types : x.types = Node.accessorType :: if m.isOutput then [Node.outputTag] else []
  bottoms : x.bottoms = [id]
  layer : x.layer = [m.name]
  subgraph : x.subgraph = none
  target : x.target = "cpu"

structure Collapses (g : Graph) (o : BuildOptions) (id : String) (x : Node) : Prop where
  name : x.name = id
  types : x.types = [o.collapsedType]
  bottoms : ∀ b, b ∈ x.bottoms ↔ ∃ n ∈ members g id, b ∈ n.bottoms ∧ b ∉ memberNames g id
  subgraph : x.subgraph = none
  target : x.target = o.target

/-- After some builds the node `x` hands out the value of the node `m` of the graph. -/
inductive Represents (g : Graph) (os : List BuildOptions) (m x : Node) : Prop
  | kept (hm : ¬m.AssignedTo (targets os)) (hx : m.Relinked x)
  | accessor (id : String) (hm : m ∈ outputs g id) (ht : m.target ∈ targets os)
      (hx : Accesses id m x)

/-- What the graph `h` has to do with the graph `g` after the builds `os`. -/
structure Rewritten (g : Graph) (os : List BuildOptions) (h : Graph) : Prop where
  valid : h.validate = .ok ()
  origin : ∀ x ∈ h.nodes, (∃ m ∈ g.nodes, Represents g os m x) ∨
    ∃ o ∈ os, ∃ id, (∃ n ∈ members g id, n.target = o.target) ∧ Collapses g o id x
  represented : ∀ m ∈ g.nodes, (¬m.AssignedTo (targets os) ∨ ∃ id, m ∈ outputs g id) →
    ∃ x ∈ h.nodes, Represents g os m x
  collapsed : ∀ o ∈ os, ∀ id, ∀ n ∈ members g id, n.target = o.target →
    ∃ x ∈ h.nodes, Collapses g o id x
  /-- A node with a tag reads no collapsed node, even where such a node has taken its name. -/
  read : ∀ x ∈ h.nodes, x.subgraph.isSome = true → ∀ b ∈ x.bottoms,
    ∃ m ∈ g.nodes, ∃ y ∈ h.nodes, y.name = b ∧ Represents g os m y
  output_iff : ∀ m ∈ g.nodes, ¬m.AssignedTo (targets os) → ∀ x ∈ h.nodes, m.Relinked x →
    ∀ id, x ∈ outputs h id ↔ m ∈ outputs g id
  together : ∀ id, ∀ m ∈ members g id, m.AssignedTo (targets os) → ∀ n ∈ members g id,
    n.target = m.target

variable {g h h' : Graph} {os os' : List BuildOptions} {o : BuildOptions} {id : String}
  {m n x y : Node}

theorem targets_append : targets (os ++ os') = targets os ++ targets os' := List.map_append

theorem assignedTo_of_mem_members (hm : m ∈ members g id) {ts : List String} :
    m.AssignedTo ts ↔ m.target ∈ ts := by
  rw [Node.AssignedTo, (mem_members.1 hm).2]
  exact and_iff_right rfl

theorem Accesses.relinked (ha : Accesses id m x) (hx : x.Relinked y) : Accesses id m y := by
  obtain ⟨_, rfl⟩ := hx
  exact ⟨ha.name, ha.types, ha.bottoms, ha.layer, ha.subgraph, ha.target⟩

theorem Collapses.relinked (hc : Collapses g o id x) (hx : x.Relinked y) :
    Collapses g o id y := by
  obtain ⟨_, rfl⟩ := hx
  exact ⟨hc.name, hc.types, hc.bottoms, hc.subgraph, hc.target⟩

namespace Represents

theorem name_eq (hr : Represents g os m x) : x.name = m.name := by
  cases hr with
  | kept _ hx => exact hx.name_eq
  | accessor id _ _ hx => exact hx.name

theorem relinked_of_notAssigned (hr : Represents g os m x) (hm : ¬m.AssignedTo (targets os)) :
    m.Relinked x := by
  cases hr with
  | kept _ hx => exact hx
  | accessor id ho ht _ =>
      exact absurd ((assignedTo_of_mem_members (mem_members_of_mem_outputs ho)).2 ht) hm

theorem accesses_of_assigned (hr : Represents g os m x) (hm : m.AssignedTo (targets os)) :
    ∃ id, m ∈ outputs g id ∧ Accesses id m x := by
  cases hr with
  | kept hu _ => exact absurd hm hu
  | accessor id ho _ hx => exact ⟨id, ho, hx⟩

theorem relinked (hr : Represents g os m x) (hx : x.Relinked y) : Represents g os m y := by
  cases hr with
  | kept hm hk => exact .kept hm (hk.trans hx)
  | accessor id ho ht ha => exact .accessor id ho ht (ha.relinked hx)

theorem kept_of_isSome (hr : Represents g os m x) (hs : x.subgraph.isSome = true) :
    ¬m.AssignedTo (targets os) ∧ m.Relinked x := by
  cases hr with
  | kept hm hx => exact ⟨hm, hx⟩
  | accessor id _ _ hx =>
      rw [hx.subgraph] at hs
      cases hs

end Represents

namespace Rewritten

variable (R : Rewritten g os h)

include R

theorem mirrored : Node.Mirrored h.nodes := (Graph.validate_eq_ok.1 R.valid).1

theorem exists_of_isSome (hx : x ∈ h.nodes) (hs : x.subgraph.isSome = true) :
    ∃ m ∈ g.nodes, ¬m.AssignedTo (targets os) ∧ m.Relinked x := by
  rcases R.origin x hx with ⟨m, hm, hr⟩ | ⟨o, -, id, -, hc⟩
  · exact ⟨m, hm, hr.kept_of_isSome hs⟩
  · rw [hc.subgraph] at hs
    cases hs

theorem exists_kept (hm : m ∈ g.nodes) (hu : ¬m.AssignedTo (targets os)) :
    ∃ x ∈ h.nodes, m.Relinked x := by
  obtain ⟨x, hx, hr⟩ := R.represented m hm (Or.inl hu)
  exact ⟨x, hx, hr.relinked_of_notAssigned hu⟩

/-! ## Partitions that are left -/

theorem exists_of_mem_members (hx : x ∈ members h id) :
    ∃ m ∈ members g id, ¬m.AssignedTo (targets os) ∧ m.Relinked x := by
  obtain ⟨hx, hs⟩ := mem_members.1 hx
  obtain ⟨m, hm, hu, tops, rfl⟩ := R.exists_of_isSome hx (by rw [hs]; rfl)
  exact ⟨m, mem_members.2 ⟨hm, hs⟩, hu, tops, rfl⟩

theorem exists_mem_members (hm : m ∈ members g id) (hu : ¬m.AssignedTo (targets os)) :
    ∃ x ∈ members h id, m.Relinked x := by
  obtain ⟨hm, hs⟩ := mem_members.1 hm
  obtain ⟨_, hx, tops, rfl⟩ := R.exists_kept hm hu
  exact ⟨_, mem_members.2 ⟨hx, hs⟩, tops, rfl⟩

/-- A partition stays whole or goes away. -/
theorem notAssignedTo_of_mem (hm : m ∈ members g id) (hu : ¬m.AssignedTo (targets os))
    (hn : n ∈ members g id) : ¬n.AssignedTo (targets os) := by
  intro hna
  rw [assignedTo_of_mem_members hm, R.together id n hn hna m hm] at hu
  exact hu hna.2

section

variable (hm : m ∈ members g id) (hu : ¬m.AssignedTo (targets os))

include hm hu

theorem mem_memberNames_iff {name : String} :
    name ∈ memberNames h id ↔ name ∈ memberNames g id := by
  constructor
  · intro hname
    obtain ⟨_, hx, rfl⟩ := List.mem_map.1 hname
    obtain ⟨n, hn, -, _, rfl⟩ := R.exists_of_mem_members hx
    exact List.mem_map.2 ⟨n, hn, rfl⟩
  · intro hname
    obtain ⟨n, hn, rfl⟩ := List.mem_map.1 hname
    obtain ⟨_, hx, _, rfl⟩ := R.exists_mem_members hn (R.notAssignedTo_of_mem hm hu hn)
    exact List.mem_map.2 ⟨_, hx, rfl⟩

/-- A partition that is left has the bottoms it had. -/
theorem exists_reader_iff {b : String} :
    (∃ n ∈ members h id, b ∈ n.bottoms ∧ b ∉ memberNames h id) ↔
      ∃ n ∈ members g id, b ∈ n.bottoms ∧ b ∉ memberNames g id := by
  rw [R.mem_memberNames_iff hm hu]
  constructor
  · rintro ⟨_, hx, hb, hout⟩
    obtain ⟨n, hn, -, _, rfl⟩ := R.exists_of_mem_members hx
    exact ⟨n, hn, hb, hout⟩
  · rintro ⟨n, hn, hb, hout⟩
    obtain ⟨_, hx, _, rfl⟩ := R.exists_mem_members hn (R.notAssignedTo_of_mem hm hu hn)
    exact ⟨_, hx, hb, hout⟩

/-- What such a partition collapses to can be told from the graph before. -/
theorem collapses_iff : Collapses h o id x ↔ Collapses g o id x := by
  constructor
  · intro hc
    exact ⟨hc.name, hc.types, fun b => (hc.bottoms b).trans (R.exists_reader_iff hm hu),
      hc.subgraph, hc.target⟩
  · intro hc
    exact ⟨hc.name, hc.types, fun b => (hc.bottoms b).trans (R.exists_reader_iff hm hu).symm,
      hc.subgraph, hc.target⟩

end

/-! ## One sequence after the other -/

/-- What represents a node that represents a third one represents that as well. -/
theorem represents (hm : m ∈ g.nodes) (hy : y ∈ h.nodes) (hr : Represents g os m y)
    (hr' : Represents h os' y x) : Represents g (os ++ os') m x := by
  cases hr with
  | kept hu he =>
      cases hr' with
      | kept hu' hx =>
          refine .kept ?_ (he.trans hx)
          obtain ⟨_, rfl⟩ := he
          rw [targets_append, Node.assignedTo_append, not_or]
          exact ⟨hu, hu'⟩
      | accessor id ho ht hx =>
          have ho' := (R.output_iff m hm hu y hy he id).1 ho
          obtain ⟨_, rfl⟩ := he
          refine .accessor id ho' ?_ ?_
          · rw [targets_append]
            exact List.mem_append_right _ ht
          · exact ⟨hx.name, hx.types, hx.bottoms, hx.layer, hx.subgraph, hx.target⟩
  | accessor id ho ht ha =>
      cases hr' with
      | kept _ hx =>
          refine .accessor id ho ?_ (ha.relinked hx)
          rw [targets_append]
          exact List.mem_append_left _ ht
      | accessor id' ho' _ _ =>
          have hs := (mem_members.1 (mem_members_of_mem_outputs ho')).2
          rw [ha.subgraph] at hs
          cases hs

variable (R' : Rewritten h os' h') (hd : List.Disjoint (targets os) (targets os'))

include R'

theorem origin_append (hx : x ∈ h'.nodes) :
    (∃ m ∈ g.nodes, Represents g (os ++ os') m x) ∨
      ∃ o ∈ os ++ os', ∃ id, (∃ n ∈ members g id, n.target = o.target) ∧ Collapses g o id x := by
  rcases R'.origin x hx with ⟨y, hy, hr⟩ | ⟨o, ho, id, ⟨y, hy, ht⟩, hc⟩
  · rcases R.origin y hy with ⟨m, hm, hr'⟩ | ⟨o, ho, id, hn, hc⟩
    · exact Or.inl ⟨m, hm, R.represents hm hy hr' hr⟩
    · have hk := hr.relinked_of_notAssigned (Node.notAssignedTo_of_subgraph hc.subgraph)
      exact Or.inr ⟨o, List.mem_append_left _ ho, id, hn, hc.relinked hk⟩
  · obtain ⟨n, hn, hu, _, rfl⟩ := R.exists_of_mem_members hy
    exact Or.inr ⟨o, List.mem_append_right _ ho, id, ⟨n, hn, ht⟩, (R.collapses_iff hn hu).1 hc⟩

theorem represented_append (hm : m ∈ g.nodes)
    (hcase : ¬m.AssignedTo (targets (os ++ os')) ∨ ∃ id, m ∈ outputs g id) :
    ∃ x ∈ h'.nodes, Represents g (os ++ os') m x := by
  by_cases hu : m.AssignedTo (targets os)
  · have hout : ∃ id, m ∈ outputs g id := by
      refine hcase.resolve_left fun hnot => hnot ?_
      rw [targets_append, Node.assignedTo_append]
      exact Or.inl hu
    obtain ⟨y, hy, hr⟩ := R.represented m hm (Or.inr hout)
    obtain ⟨id, -, ha⟩ := hr.accesses_of_assigned hu
    obtain ⟨x, hx, hr'⟩ :=
      R'.represented y hy (Or.inl (Node.notAssignedTo_of_subgraph ha.subgraph))
    exact ⟨x, hx, R.represents hm hy hr hr'⟩
  · obtain ⟨y, hy, hk⟩ := R.exists_kept hm hu
    have hy' : ¬y.AssignedTo (targets os') ∨ ∃ id, y ∈ outputs h id := by
      rcases hcase with hnot | ⟨i, ho⟩
      · refine Or.inl fun ha => hnot ?_
        obtain ⟨_, rfl⟩ := hk
        rw [targets_append, Node.assignedTo_append]
        exact Or.inr ha
      · exact Or.inr ⟨i, (R.output_iff m hm hu y hy hk i).2 ho⟩
    obtain ⟨x, hx, hr'⟩ := R'.represented y hy hy'
    exact ⟨x, hx, R.represents hm hy (.kept hu hk) hr'⟩

include hd

theorem collapsed_append (ho : o ∈ os ++ os') (hn : n ∈ members g id)
    (ht : n.target = o.target) : ∃ x ∈ h'.nodes, Collapses g o id x := by
  rcases List.mem_append.1 ho with ho | ho
  · obtain ⟨y, hy, hc⟩ := R.collapsed o ho id n hn ht
    obtain ⟨x, hx, hk⟩ := R'.exists_kept hy (Node.notAssignedTo_of_subgraph hc.subgraph)
    exact ⟨x, hx, hc.relinked hk⟩
  · have hu : ¬n.AssignedTo (targets os) := by
      rw [assignedTo_of_mem_members hn, ht]
      exact fun hin => hd hin (List.mem_map_of_mem ho)
    obtain ⟨_, hy, _, rfl⟩ := R.exists_mem_members hn hu
    obtain ⟨x, hx, hc⟩ := R'.collapsed o ho id _ hy ht
    exact ⟨x, hx, (R.collapses_iff hn hu).1 hc⟩

/-- Builds for different devices come to one sequence of builds. -/
theorem append : Rewritten g (os ++ os') h' where
  valid := R'.valid
  origin x hx := R.origin_append R' hx
  represented m hm h := R.represented_append R' hm h
  collapsed o ho id n hn ht := R.collapsed_append R' hd ho hn ht
  read x hx hs b hb := by
    obtain ⟨y, hy, -, _, rfl⟩ := R'.exists_of_isSome hx hs
    obtain ⟨m, hm, z, hz, hname, hr⟩ := R.read y hy hs b hb
    obtain ⟨z', hz', w, hw, rfl, hr'⟩ := R'.read _ hx hs b hb
    obtain rfl : z = z' := Node.eq_of_name_eq h.nodup hz hz' (hname.trans hr'.name_eq)
    exact ⟨m, hm, w, hw, rfl, R.represents hm hz hr hr'⟩
  output_iff m hm hu x hx hk id := by
    rw [targets_append, Node.assignedTo_append, not_or] at hu
    obtain ⟨y, hy, hk₁⟩ := R.exists_kept hm hu.1
    have hu' : ¬y.AssignedTo (targets os') := by
      obtain ⟨_, rfl⟩ := hk₁
      exact hu.2
    obtain ⟨x', hx', hk₂⟩ := R'.exists_kept hy hu'
    have hname : x'.name = x.name := (hk₁.trans hk₂).name_eq.trans hk.name_eq.symm
    obtain rfl := Node.eq_of_name_eq h'.nodup hx' hx hname
    rw [R'.output_iff y hy hu' x' hx hk₂ id, R.output_iff m hm hu.1 y hy hk₁ id]
  together id m hm ha n hn := by
    by_cases hu : m.AssignedTo (targets os)
    · exact R.together id m hm hu n hn
    · rw [targets_append, Node.assignedTo_append] at ha
      obtain ⟨_, hx, _, rfl⟩ := R.exists_mem_members hm hu
      obtain ⟨_, hy, _, rfl⟩ := R.exists_mem_members hn (R.notAssignedTo_of_mem hm hu hn)
      have htarget := R'.together id _ hx (ha.resolve_left hu) _ hy
      exact htarget

end Rewritten

end Builder

/-! ## One build -/

namespace Substitution.Context.Contraction

open Builder

variable {c : Context} {new : List (String × Partition)} {net : List Node} {h : Graph}
  {m n x : Node}

theorem relinked_relinked (es : List (String × Partition)) (n : Node) :
    n.Relinked (c.relinked es n) := ⟨_, relinked_eq es n⟩

variable (hcon : Contraction c new net)

include hcon

theorem claims_iff_assignedTo (hn : n ∈ c.graph.nodes) :
    c.claims n = true ↔ n.AssignedTo (targets [c.options]) := by
  rw [claims_iff_of_tagged hcon.tagged hn, Node.AssignedTo, targets, List.map_singleton,
    List.mem_singleton]

theorem exists_mem_new {id : String} (hn : n ∈ members c.graph id)
    (ht : n.target = c.options.target) : ∃ e ∈ new, e.1 = id := by
  obtain ⟨hmem, hs⟩ := mem_members.1 hn
  have hclaimed := (claims_iff_of_tagged hcon.tagged hmem).2 ⟨by rw [hs]; rfl, ht⟩
  obtain ⟨e, he, hs'⟩ := hcon.replaced.complete _ hmem hclaimed
  exact ⟨e, he, eq_of_mem_members (mem_members.2 ⟨hmem, hs'⟩) hn⟩

theorem exists_member {e : String × Partition} (he : e ∈ new) :
    ∃ n ∈ members c.graph e.1, n.target = c.options.target := by
  obtain ⟨hp, ht⟩ := hcon.mem_new_iff.1 he
  obtain ⟨n, hn, hs⟩ := mem_tags.1 ((tagged_eq_ok hcon.tagged).1 hp).1
  have hmem : n ∈ members c.graph e.1 := mem_members.2 ⟨hn, hs⟩
  exact ⟨n, hmem, ((hcon.summary he).target_eq n hmem).trans ht⟩

theorem collapses {e : String × Partition} (he : e ∈ new) (hx : c.collapse e.2 = .ok x) :
    Collapses c.graph c.options e.1 x := by
  obtain ⟨attrs, rfl⟩ := hcon.collapsed_spec he hx
  exact ⟨rfl, rfl, fun b => (hcon.summary he).mem_bottoms, rfl, (hcon.mem_new_iff.1 he).2⟩

theorem accesses {e : String × Partition} (hx : x ∈ c.accessors e.2) (he : e ∈ new) :
    ∃ m ∈ outputs c.graph e.1, Accesses e.1 m x := by
  obtain ⟨m, hm, hname, hbottoms, -⟩ := hcon.accessor_spec he hx
  have hmem := (mem_members.1 (mem_members_of_mem_outputs hm)).1
  obtain ⟨i, o, s, -, -, rfl⟩ := mem_accessors.1 hx
  obtain rfl : o = m.name := hname
  have hout : m.name ∈ c.graph.outputNames ↔ m.isOutput = true := by
    rw [Graph.mem_outputNames]
    constructor
    · rintro ⟨n, hn, ho, he⟩
      rwa [← Node.eq_of_name_eq c.graph.nodup hn hmem he]
    · exact fun ho => ⟨m, hmem, ho, rfl⟩
  refine ⟨m, hm, rfl, ?_, hbottoms, rfl, rfl, rfl⟩
  simp only [accessor, hout]

theorem represents_of_mem_accessors {e : String × Partition} (hx : x ∈ c.accessors e.2)
    (he : e ∈ new) : ∃ m ∈ c.graph.nodes, Represents c.graph [c.options] m x := by
  obtain ⟨m, hm, ha⟩ := hcon.accesses hx he
  obtain ⟨hmem, hs⟩ := mem_members.1 (mem_members_of_mem_outputs hm)
  have hassigned := (hcon.claims_iff_assignedTo hmem).1 (hcon.replaced.claims_of_subgraph he hs)
  exact ⟨m, hmem, .accessor e.1 hm hassigned.2 ha⟩

theorem represents_of_kept (hx : x ∈ c.graph.nodes) (hc : c.claims x = false) :
    Represents c.graph [c.options] x x := by
  refine .kept (fun ha => ?_) ⟨x.tops, rfl⟩
  rw [(hcon.claims_iff_assignedTo hx).2 ha] at hc
  cases hc

theorem exists_represents {e : String × Partition} (he : e ∈ new) (hm : m ∈ outputs c.graph e.1) :
    ∃ x ∈ net, Represents c.graph [c.options] m x := by
  obtain ⟨x, hx, hname, -, -⟩ := hcon.exists_accessor he hm
  obtain ⟨m', hm', hr⟩ := hcon.represents_of_mem_accessors hx he
  have hmem := (mem_members.1 (mem_members_of_mem_outputs hm)).1
  obtain rfl : m' = m := Node.eq_of_name_eq c.graph.nodup hm' hmem (hr.name_eq.symm.trans hname)
  exact ⟨x, hcon.mem_net.2 (.accessor e he hx), hr⟩

variable (hperm : h.nodes.Perm (net.map (c.relinked (Dict.ofList new).entries)))

include hperm

omit hcon in
theorem exists_of_mem_net (hx : x ∈ net) : ∃ y ∈ h.nodes, x.Relinked y :=
  ⟨_, hperm.mem_iff.2 (List.mem_map_of_mem hx), relinked_relinked _ x⟩

omit hcon in
theorem exists_mem_net (hx : x ∈ h.nodes) : ∃ y ∈ net, y.Relinked x := by
  obtain ⟨y, hy, rfl⟩ := List.mem_map.1 (hperm.mem_iff.1 hx)
  exact ⟨y, hy, relinked_relinked _ y⟩

variable (hm : Node.Mirrored c.graph.nodes)

include hm

theorem mem_outputs_relinked_iff (hn : n ∈ c.graph.nodes) (hc : c.claims n = false) {id : String} :
    c.relinked (Dict.ofList new).entries n ∈ outputs h id ↔ n ∈ outputs c.graph id := by
  constructor
  · intro ho
    have hs := (mem_members.1 (mem_members_of_mem_outputs ho)).2
    rw [relinked_subgraph] at hs
    exact hcon.mem_outputs_of_relinked hperm hn hc hs ho
  · intro ho
    obtain ⟨hmem, hleaves⟩ := mem_outputs.1 ho
    have hmem' := hperm.mem_iff.2 (List.mem_map_of_mem (hcon.mem_net.2 (.kept hn hc)))
    refine mem_outputs.2 ⟨mem_members.2 ⟨hmem', ?_⟩, ?_⟩
    · rw [relinked_subgraph]
      exact (mem_members.1 hmem).2
    rcases hleaves with htops | ⟨t, ht, hout⟩
    · left
      refine List.eq_nil_iff_forall_not_mem.2 fun t ht => ?_
      obtain ⟨s, hs, -⟩ := mem_tops_relinked.1 ht
      rw [htops] at hs
      cases hs
    · -- the reader outside is still outside, whatever it has become
      refine Or.inr ⟨_, mem_tops_relinked.2 ⟨t, ht, rfl⟩, fun hin => ?_⟩
      obtain ⟨y, hy, hs, hyname⟩ := mem_memberNames.1 hin
      obtain ⟨x, hx, -, hsx, rfl⟩ := hcon.exists_kept hperm hy hs
      rw [relinked_name] at hyname
      obtain ⟨r, hr, rfl, hb⟩ := hm.bottom_of_top n hn t ht
      have hbec := hcon.becomes_redirect hr hb fun e he hne =>
        absurd hne (hcon.notMem_memberNames_of_kept hn hc he)
      rw [← hyname] at hbec
      generalize hx' : x.name = t' at hbec
      cases hbec with
      | kept => exact hout (hx' ▸ mem_memberNames_of_subgraph hx hsx)
      | collapsed e he _ => exact hcon.id_notMem he (hx' ▸ List.mem_map_of_mem hx)

omit hm in
theorem origin_of_mem (hx : x ∈ h.nodes) :
    (∃ m ∈ c.graph.nodes, Represents c.graph [c.options] m x) ∨
      ∃ o ∈ [c.options], ∃ id, (∃ n ∈ members c.graph id, n.target = o.target) ∧
        Collapses c.graph o id x := by
  obtain ⟨y, hy, hk⟩ := exists_mem_net hperm hx
  cases hcon.mem_net.1 hy with
  | kept hy hc => exact Or.inl ⟨y, hy, (hcon.represents_of_kept hy hc).relinked hk⟩
  | collapsed e he hy =>
      exact Or.inr ⟨c.options, List.mem_singleton_self _, e.1, hcon.exists_member he,
        (hcon.collapses he hy).relinked hk⟩
  | accessor e he hy =>
      obtain ⟨m, hm, hr⟩ := hcon.represents_of_mem_accessors hy he
      exact Or.inl ⟨m, hm, hr.relinked hk⟩

omit hm in
theorem exists_represents_of_mem (hmem : m ∈ c.graph.nodes)
    (hcase : ¬m.AssignedTo (targets [c.options]) ∨ ∃ id, m ∈ outputs c.graph id) :
    ∃ x ∈ h.nodes, Represents c.graph [c.options] m x := by
  suffices hnet : ∃ x ∈ net, Represents c.graph [c.options] m x by
    obtain ⟨x, hx, hr⟩ := hnet
    obtain ⟨y, hy, hk⟩ := exists_of_mem_net hperm hx
    exact ⟨y, hy, hr.relinked hk⟩
  by_cases ha : m.AssignedTo (targets [c.options])
  · obtain ⟨id, ho⟩ := hcase.resolve_left (not_not.2 ha)
    obtain ⟨e, he, rfl⟩ :=
      hcon.exists_mem_new (mem_members_of_mem_outputs ho) (List.mem_singleton.1 ha.2)
    exact hcon.exists_represents he ho
  · rw [← hcon.claims_iff_assignedTo hmem, Bool.not_eq_true] at ha
    exact ⟨m, hcon.mem_net.2 (.kept hmem ha), hcon.represents_of_kept hmem ha⟩

omit hm in
theorem exists_collapses {id : String} (hn : n ∈ members c.graph id)
    (ht : n.target = c.options.target) : ∃ x ∈ h.nodes, Collapses c.graph c.options id x := by
  obtain ⟨e, he, rfl⟩ := hcon.exists_mem_new hn ht
  obtain ⟨-, -, x, hx⟩ := hcon.replaced.reported e he
  obtain ⟨y, hy, hk⟩ := exists_of_mem_net hperm (hcon.mem_net.2 (.collapsed e he hx))
  exact ⟨y, hy, (hcon.collapses he hx).relinked hk⟩

/-- What a node with a tag reads represents a node of the graph. -/
theorem exists_represents_of_bottom (hx : x ∈ h.nodes) (hs : x.subgraph.isSome = true) {b : String}
    (hb : b ∈ x.bottoms) :
    ∃ m ∈ c.graph.nodes, ∃ y ∈ h.nodes, y.name = b ∧ Represents c.graph [c.options] m y := by
  obtain ⟨id, hid⟩ := Option.isSome_iff_exists.1 hs
  obtain ⟨n, hn, hc, -, rfl⟩ := hcon.exists_kept hperm hx hid
  rw [relinked_bottoms] at hb
  obtain ⟨y, hy, rfl, -⟩ := hcon.top_of_bottom hm (hcon.mem_net.2 (.kept hn hc)) hb
  suffices hr : ∃ m ∈ c.graph.nodes, Represents c.graph [c.options] m y by
    obtain ⟨m, hmem, hr⟩ := hr
    obtain ⟨z, hz, hk⟩ := exists_of_mem_net hperm hy
    exact ⟨m, hmem, z, hz, hk.name_eq, hr.relinked hk⟩
  cases hcon.mem_net.1 hy with
  | kept hy hc => exact ⟨y, hy, hcon.represents_of_kept hy hc⟩
  | accessor e he hy => exact hcon.represents_of_mem_accessors hy he
  | collapsed e he hy =>
      -- the name of a collapsed node is that of no node of the graph, so nobody reads it there
      have hname := (hcon.collapses he hy).name
      exact absurd (hname ▸ c.graph.closed n hn y.name hb) (hcon.id_notMem he)

/-- A contraction rewrites the graph for the device it was made for. -/
theorem rewritten (hv : h.validate = .ok ()) : Rewritten c.graph [c.options] h where
  valid := hv
  origin x hx := hcon.origin_of_mem hperm hx
  represented m hmem hcase := hcon.exists_represents_of_mem hperm hmem hcase
  collapsed o ho id n hn ht := by
    obtain rfl := List.mem_singleton.1 ho
    exact hcon.exists_collapses hperm hn ht
  read x hx hs b hb := hcon.exists_represents_of_bottom hperm hm hx hs hb
  output_iff m hmem hu x hx hk id := by
    have hc : c.claims m = false := by
      rw [← Bool.not_eq_true, hcon.claims_iff_assignedTo hmem]
      exact hu
    have hmem' := hperm.mem_iff.2 (List.mem_map_of_mem (hcon.mem_net.2 (.kept hmem hc)))
    obtain rfl := Node.eq_of_name_eq h.nodup hx hmem' (hk.name_eq.trans (relinked_name _ m).symm)
    exact hcon.mem_outputs_relinked_iff hperm hm hmem hc
  together id m hm _ n hn := by
    obtain ⟨hmem, hs⟩ := mem_members.1 hm
    obtain ⟨p, -, hsum⟩ := exists_get?_of_subgraph hcon.tagged hmem hs
    rw [hsum.target_eq n hn, hsum.target_eq m hm]

end Substitution.Context.Contraction

namespace Builder

open Substitution

variable {g h : Graph} {os os' : List BuildOptions} {o : BuildOptions} {r : BuildReport} {v : Bool}

/-- A build of a valid graph rewrites it. -/
theorem rewritten_of_build (hg : g.validate = .ok ())
    (hb : ({ verify := v } : Builder).build g o = .ok (h, r)) : Rewritten g [o] h := by
  obtain ⟨ps, new, net, hcon, hperm, hord, -⟩ := exists_contraction hb
  have hm : Node.Mirrored g.nodes := (Graph.validate_eq_ok.1 hg).1
  have hv := Graph.validate_of_ordered ((hcon.mirrored_relinked hm).perm hperm.symm) hord
  exact hcon.rewritten hperm hm hv

theorem rewritten_nil (hg : g.validate = .ok ()) : Rewritten g [] g where
  valid := hg
  origin x hx := Or.inl ⟨x, hx, .kept (fun ha => nomatch ha.2) ⟨x.tops, rfl⟩⟩
  represented m hm _ := ⟨m, hm, .kept (fun ha => nomatch ha.2) ⟨m.tops, rfl⟩⟩
  collapsed o ho := nomatch ho
  read x hx _ b hb := by
    obtain ⟨m, hm, hname⟩ := List.mem_map.1 (g.closed x hx b hb)
    exact ⟨m, hm, m, hm, hname, .kept (fun ha => nomatch ha.2) ⟨m.tops, rfl⟩⟩
  output_iff m hm _ x hx hk id := by rw [Node.eq_of_name_eq g.nodup hx hm hk.name_eq]
  together id m _ ha := nomatch ha.2

theorem buildAll_cons_eq_ok : ({ verify := v } : Builder).buildAll g (o :: os) = .ok h ↔
    ∃ h₁ r, ({ verify := v } : Builder).build g o = .ok (h₁, r) ∧
      ({ verify := v } : Builder).buildAll h₁ os = .ok h := by
  rw [buildAll, Outcome.bind_eq_ok, Prod.exists]

theorem buildAll_append_eq_ok : ({ verify := v } : Builder).buildAll g (os ++ os') = .ok h ↔
    ∃ h₁, ({ verify := v } : Builder).buildAll g os = .ok h₁ ∧
      ({ verify := v } : Builder).buildAll h₁ os' = .ok h := by
  induction os generalizing g with
  | nil => simp [buildAll]
  | cons o os ih =>
      rw [List.cons_append, buildAll_cons_eq_ok]
      simp only [ih, buildAll_cons_eq_ok]
      constructor
      · rintro ⟨h₁, r, hb, h₂, hb', hrest⟩
        exact ⟨h₂, ⟨h₁, r, hb, hb'⟩, hrest⟩
      · rintro ⟨h₂, ⟨h₁, r, hb, hb'⟩, hrest⟩
        exact ⟨h₁, r, hb, h₂, hb', hrest⟩

/-- Builds of a valid graph for different devices rewrite it. -/
theorem rewritten_of_buildAll (hg : g.validate = .ok ()) (hd : (targets os).Nodup)
    (hb : ({ verify := v } : Builder).buildAll g os = .ok h) : Rewritten g os h := by
  induction os generalizing g with
  | nil =>
      cases hb
      exact rewritten_nil hg
  | cons o os ih =>
      obtain ⟨h₁, r, hb, hrest⟩ := buildAll_cons_eq_ok.1 hb
      rw [targets, List.map_cons, List.nodup_cons] at hd
      have R := rewritten_of_build hg hb
      have hdisjoint : List.Disjoint (targets [o]) (targets os) := by
        rw [targets, List.map_singleton, List.singleton_disjoint]
        exact hd.1
      exact R.append (ih R.valid hd.2 hrest) hdisjoint

/-- Two nodes in a row behind an input, the first of which is to be run on `dpu` and the second on
`npu`; the first was made of two source operations. -/
def relay : Graph where
  name := "relay"
  nodes := [
    { name := "x", types := ["Input"], shapes := .tensor ⟨[1]⟩, tops := ["r"], layer := ["data"] },
    { name := "r", types := ["ReLU"], shapes := .tensor ⟨[1]⟩, bottoms := ["x"], tops := ["s"],
      layer := ["conv1", "relu1"], subgraph := some "xp0", target := "dpu" },
    { name := "s", types := ["Identity"], shapes := .tensor ⟨[1]⟩, bottoms := ["r"],
      layer := ["softmax"], subgraph := some "xp1", target := "npu" }]
  compilerOutput := none
  nodup := by simp
  closed := by simp

/-- The builds that `relay` asks for. -/
def forDpu : BuildOptions := { target := "dpu", collapsedType := "DPU" }

@[inherit_doc forDpu]
def forNpu : BuildOptions := { target := "npu", collapsedType := "NPU" }

end Builder

end Dataflow
