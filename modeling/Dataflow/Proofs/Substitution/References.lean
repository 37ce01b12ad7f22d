import Dataflow.Proofs.Partition.Crossing
import Dataflow.Proofs.Substitution.Sequence

/-!
# What references become

A build does not touch the bottoms of the nodes that it leaves. Each name in them is still that of a
node with the shapes that were declared under it: of the same node, or of an accessor. An accessor
takes its name, its index and its shape from one position of the lists of its partition, so what it
reads from the collapsed node is the value that the name stood for.

None of this takes the edges of the graph to be recorded on both ends. Whether an accessor is there
for a member that is read from outside depends on the tops of the member, which may be wrong; but a
name without a node would not have made a graph, so then there is no result to speak of.
-/

namespace Dataflow.Substitution.Context

open Dataflow.Partition Builder

variable {c : Context} {new : List (String × Partition)} {net : List Node} {m x y z : Node}

/-- The node `x` reads output `i` of the partition `p`, which the node `z` stands for, under the name
and the shape that are recorded there. -/
structure Projects (p : Partition) (z x : Node) (i : Nat) : Prop where
  outputNames_eq : z.attr? "output_names" = some (.strs p.outputNames)
  tuple_eq : z.shapes = .tuple p.shapes
  opType_eq : x.opType = Node.accessorType
  bottoms_eq : x.bottoms = [z.name]
  index_eq : x.attr? "index" = some (.int i)
  name_eq : p.outputNames[i]? = some x.name
  shapes_eq : ∃ s, p.shapes[i]? = some s ∧ x.shapes = .tensor s

theorem Projects.relinked {p : Partition} {i : Nat} {x' z' : Node} (h : Projects p z x i)
    (hz : z.Relinked z') (hx : x.Relinked x') : Projects p z' x' i := by
  obtain ⟨_, rfl⟩ := hz
  obtain ⟨_, rfl⟩ := hx
  exact ⟨h.outputNames_eq, h.tuple_eq, h.opType_eq, h.bottoms_eq, h.index_eq, h.name_eq,
    h.shapes_eq⟩

/-- The accessors of a partition read the node it collapses to. -/
theorem exists_projects {p : Partition} (ho : c.options.validate = .ok ())
    (hz : c.collapse p = .ok z) (hx : x ∈ c.accessors p) : ∃ i, Projects p z x i := by
  obtain ⟨-, -, interior, attrs, -, hattrs, rfl⟩ := collapse_eq_ok hz
  obtain ⟨i, o, s, hname, hshape, rfl⟩ := mem_accessors.1 hx
  exact ⟨i, (get?_collapsedAttrs ho hattrs).2, rfl, rfl, rfl, rfl, hname, s, hshape, rfl⟩

namespace Contraction

variable (hcon : Contraction c new net)

include hcon

/-- A node with the name of a node of the graph is this node or an accessor for it. -/
theorem eq_or_mem_accessors (hx : x ∈ net) (hm : m ∈ c.graph.nodes) (hname : x.name = m.name) :
    (x = m ∧ c.claims m = false) ∨
      ∃ e ∈ new, m ∈ members c.graph e.1 ∧ x ∈ c.accessors e.2 := by
  cases hcon.mem_net.1 hx with
  | kept hx hc =>
      obtain rfl := Node.eq_of_name_eq c.graph.nodup hx hm hname
      exact Or.inl ⟨rfl, hc⟩
  | collapsed e he hx =>
      rw [(hcon.collapses he hx).name] at hname
      exact absurd (hname ▸ List.mem_map_of_mem hm) (hcon.id_notMem he)
  | accessor e he hx =>
      obtain ⟨m', hm', hname', -, -⟩ := hcon.accessor_spec he hx
      have hmem := mem_members_of_mem_outputs hm'
      obtain rfl : m' = m := Node.eq_of_name_eq c.graph.nodup (mem_members.1 hmem).1 hm
        (hname'.symm.trans hname)
      exact Or.inr ⟨e, he, hmem, hx⟩

/-- An accessor has the shape that the output of its name declares. -/
theorem shapes_of_mem_accessors {e : String × Partition} (he : e ∈ new)
    (hx : x ∈ c.accessors e.2) (hm : m ∈ c.graph.nodes) (hname : x.name = m.name) :
    x.shapes = m.shapes := by
  obtain ⟨i, o, s, ho, hs, rfl⟩ := mem_accessors.1 hx
  have hzip : (o, s) ∈ e.2.outputNames.zip e.2.shapes :=
    List.mem_of_getElem? (List.getElem?_zip_eq_some.2 ⟨ho, hs⟩)
  obtain ⟨m', hm', hname', hshapes⟩ := List.forall₂_zip (hcon.summary he).shapes_aligned hzip
  obtain rfl : m' = m := Node.eq_of_name_eq c.graph.nodup (mem_members.1 hm').1 hm
    (hname'.trans hname)
  exact hshapes.symm

/-- A name keeps its shapes, whatever took it over. -/
theorem shapes_of_name_eq (hx : x ∈ net) (hm : m ∈ c.graph.nodes) (hname : x.name = m.name) :
    x.shapes = m.shapes := by
  rcases hcon.eq_or_mem_accessors hx hm hname with ⟨rfl, -⟩ | ⟨e, he, -, hacc⟩
  · rfl
  · exact hcon.shapes_of_mem_accessors he hacc hm hname

/-- The name of a member of a collapsed partition is that of an accessor, or of no node. -/
theorem exists_projects_of_name_eq (ho : c.options.validate = .ok ()) (hx : x ∈ net) {id : String}
    (hm : m ∈ members c.graph id) (ht : m.target = c.options.target) (hname : x.name = m.name) :
    ∃ e ∈ new, e.1 = id ∧ ∃ z ∈ net, Collapses c.graph c.options id z ∧
      ∃ i, Projects e.2 z x i := by
  have hmem := (mem_members.1 hm).1
  rcases hcon.eq_or_mem_accessors hx hmem hname with ⟨-, hc⟩ | ⟨e, he, hm', hacc⟩
  · obtain ⟨e, he, rfl⟩ := hcon.exists_mem_new hm ht
    exact absurd (List.mem_map_of_mem hm) (hcon.notMem_memberNames_of_kept hmem hc he)
  · obtain rfl := eq_of_mem_members hm' hm
    obtain ⟨-, -, z, hz⟩ := hcon.replaced.reported e he
    exact ⟨e, he, rfl, z, hcon.mem_net.2 (.collapsed e he hz), hcon.collapses he hz,
      exists_projects ho hz hacc⟩

end Contraction

end Dataflow.Substitution.Context

namespace Dataflow.Builder

open Dataflow.Partition Substitution Substitution.Context

variable {g h : Graph} {o : BuildOptions} {r : BuildReport} {v : Bool} {n : Node}

/-- A node that no collapsed partition consumes has its bottoms still, and each name in them denotes
a node with the same shapes. The name of a consumed node denotes an accessor, which reads the output
of this name from what the partition collapsed to. -/
theorem references_of_build (hb : ({ verify := v } : Builder).build g o = .ok (h, r))
    (hn : n ∈ g.nodes) (hu : ¬n.AssignedTo [o.target]) :
    ∃ tops, h.get? n.name = some { n with tops } ∧
      ∀ b ∈ n.bottoms, ∃ m x, g.get? b = some m ∧ h.get? b = some x ∧ x.shapes = m.shapes ∧
        ∀ id, m ∈ members g id → m.target = o.target →
          ∃ p z i, summarize g id = .ok p ∧ h.get? id = some z ∧ Collapses g o id z ∧
            Projects p z x i := by
  obtain ⟨ho, -⟩ := build_eq_ok.1 hb
  obtain ⟨ps, new, net, hcon, hperm, -⟩ := exists_contraction hb
  have hc : (contextOf g o ps).claims n = false := by
    rw [← Bool.not_eq_true, hcon.claims_iff_assignedTo hn]
    exact hu
  obtain ⟨n', hn', tops, rfl⟩ :=
    Contraction.exists_of_mem_net hperm (hcon.mem_net.2 (.kept hn hc))
  refine ⟨tops, Graph.get?_eq_some_iff.2 ⟨hn', rfl⟩, fun b hb => ?_⟩
  obtain ⟨x, hx, rfl⟩ := List.mem_map.1 (h.closed _ hn' b hb)
  obtain ⟨m, hm, hname⟩ := List.mem_map.1 (g.closed n hn x.name hb)
  obtain ⟨y, hy, hk⟩ := Contraction.exists_mem_net hperm hx
  have hyname : y.name = m.name := hk.name_eq.symm.trans hname.symm
  refine ⟨m, x, Graph.get?_eq_some_iff.2 ⟨hm, hname⟩, Graph.get?_eq_some_iff.2 ⟨hx, rfl⟩, ?_, ?_⟩
  · rw [← hcon.shapes_of_name_eq hy hm hyname]
    obtain ⟨_, rfl⟩ := hk
    rfl
  · intro id hid ht
    obtain ⟨e, he, rfl, z, hz, hcollapses, i, hproj⟩ :=
      hcon.exists_projects_of_name_eq ho hy hid ht hyname
    obtain ⟨z', hz', hkz⟩ := Contraction.exists_of_mem_net hperm hz
    have hsum := ((tagged_eq_ok hcon.tagged).1 (hcon.replaced.reported e he).1).2
    exact ⟨e.2, z', i, hsum, Graph.get?_eq_some_iff.2 ⟨hz', hkz.name_eq.trans hcollapses.name⟩,
      hcollapses.relinked hkz, hproj.relinked hkz hk⟩

def oneWay : Graph where
  name := "oneWay"
  nodes := [
    { name := "x", types := ["Input"], shapes := .tensor ⟨[1]⟩ },
    { name := "r", types := ["ReLU"], shapes := .tensor ⟨[2]⟩, bottoms := ["x"],
      subgraph := some "xp0", target := "dpu" },
    { name := "out", types := ["Concat"], shapes := .tensor ⟨[3]⟩, bottoms := ["r", "x", "r"] }]
  compilerOutput := none
  nodup := by simp
  closed := by simp

theorem references_of_build_oneWay :
    oneWay.validate ≠ .ok () ∧ ∃ h r n tops m x p z i,
      ({ verify := false } : Builder).build oneWay forDpu = .ok (h, r) ∧ n ∈ oneWay.nodes ∧
        ¬n.AssignedTo ["dpu"] ∧ n.bottoms = ["r", "x", "r"] ∧
          h.get? n.name = some { n with tops } ∧ oneWay.get? "r" = some m ∧
            h.get? "r" = some x ∧ x.shapes = m.shapes ∧ summarize oneWay "xp0" = .ok p ∧
              h.get? "xp0" = some z ∧ Projects p z x i := by
  obtain ⟨⟨h, r⟩, hb⟩ := Outcome.exists_of_isOk
    (x := ({ verify := false } : Builder).build oneWay forDpu) (by decide +kernel)
  have hn : oneWay.nodes[2] ∈ oneWay.nodes := List.getElem_mem _
  have hu : ¬oneWay.nodes[2].AssignedTo ["dpu"] := Node.notAssignedTo_of_subgraph rfl
  obtain ⟨tops, hget, hrefs⟩ := references_of_build hb hn hu
  obtain ⟨m, x, hm, hx, hshapes, hproj⟩ := hrefs "r" (by decide)
  have hr : oneWay.get? "r" = some oneWay.nodes[1] :=
    Graph.get?_eq_some_iff.2 ⟨List.getElem_mem _, rfl⟩
  obtain rfl : oneWay.nodes[1] = m := Option.some.inj (hr.symm.trans hm)
  have hmember : oneWay.nodes[1] ∈ members oneWay "xp0" :=
    mem_members.2 ⟨List.getElem_mem _, rfl⟩
  obtain ⟨p, z, i, hp, hz, -, hproj⟩ := hproj "xp0" hmember rfl
  exact ⟨by decide +kernel, h, r, _, tops, _, x, p, z, i, hb, hn, hu, rfl, hget, hm, hx, hshapes,
    hp, hz, hproj⟩

end Dataflow.Builder
