import Dataflow.Proofs.Graph.Cycles
import Dataflow.Proofs.Partition.Crossing

/-!
# The interior as a graph

The interior of a partition of a valid graph is a valid graph. A member has the bottoms that it has
in the graph; those that are no members are stood in for by inputs. So the edges of the interior are
the edges of the graph into the partition, and none of them is recorded on one end only: a top is
kept exactly if it is a member's, also the top of a producer. There is no cycle for want of one in
the graph, and for the same reason some value leaves: members that are all read by members only
would lead from one to the next without end.
-/

namespace Dataflow.Partition

variable {g : Graph} {id : String} {p : Partition} {n : Node}

structure StandsInFor (id b : String) (x : Node) : Prop where
  name_eq : x.name = b
  types_eq : x.types = ["Input"]
  bottoms_eq : x.bottoms = []
  subgraph_eq : x.subgraph = some id

/-- The graph `s` holds the members of the partition and an input for each producer, and no other
readers than members. -/
structure Excerpt (g : Graph) (id : String) (p : Partition) (s : Graph) : Prop where
  nodup_inputNames : p.inputNames.Nodup
  mem_inputNames : ∀ b, b ∈ p.inputNames ↔ ∃ x ∈ g.nodes, x.name = b ∧ x.subgraph ≠ some id ∧
    ∃ n ∈ members g id, b ∈ n.bottoms
  nodes_eq : ∃ inputs, List.Forall₂ (StandsInFor id) p.inputNames inputs ∧
    s.nodes = inputs ++ (members g id).map fun n =>
      { n with tops := n.tops.filter (· ∈ memberNames g id) }
  exists_output : ∃ n ∈ members g id, n.name ∈ p.outputNames

namespace Summary

/-! ## Nodes -/

theorem mem_interior (h : Summary g id p) : n ∈ p.interior ↔
    (∃ x ∈ g.nodes, x.name ∈ p.bottoms ∧ standIn id p.target (memberNames g id) x = n) ∨
      ∃ m ∈ members g id, interiorNode (memberNames g id) m = n := by
  obtain ⟨producers, hp, hi⟩ := h.interior_eq
  have hproducers : ∀ x, x ∈ producers ↔ x ∈ g.nodes ∧ x.name ∈ p.bottoms := by
    intro x
    constructor
    · intro hx
      obtain ⟨b, hb, hnode⟩ := Outcome.exists_left_of_mem hp hx
      obtain ⟨hmem, rfl⟩ := Graph.node_eq_ok.1 hnode
      exact ⟨hmem, hb⟩
    · rintro ⟨hx, hb⟩
      obtain ⟨y, hy, hnode⟩ := Outcome.exists_right_of_mem hp hb
      obtain ⟨hmem, hname⟩ := Graph.node_eq_ok.1 hnode
      rwa [← Node.eq_of_name_eq g.nodup hmem hx hname]
  rw [hi, List.mem_append, List.mem_map, List.mem_map]
  simp only [hproducers, and_assoc]

theorem interior_excerpt (h : Summary g id p) :
    ∃ inputs, List.Forall₂ (StandsInFor id) p.inputNames inputs ∧
      p.interior = inputs ++ (members g id).map fun n =>
        { n with tops := n.tops.filter (· ∈ memberNames g id) } := by
  obtain ⟨producers, hp, hi⟩ := h.interior_eq
  refine ⟨_, ?_, hi⟩
  rw [h.inputNames_eq, List.forall₂_map_right_iff]
  exact hp.imp fun b x hx => ⟨(Graph.node_eq_ok.1 hx).2, rfl, rfl, rfl⟩

/-! ## Edges -/

theorem mirrored_interior (h : Summary g id p) (hm : Node.Mirrored g.nodes) :
    Node.Mirrored p.interior where
  top_of_bottom := by
    intro n hn b hb
    rcases h.mem_interior.1 hn with ⟨x, -, -, rfl⟩ | ⟨m, hmem, rfl⟩
    · cases hb
    · obtain ⟨x, hx, rfl, ht⟩ := hm.top_of_bottom m (mem_members.1 hmem).1 b hb
      have hkept : m.name ∈ x.tops.filter (· ∈ memberNames g id) :=
        List.mem_filter.2 ⟨ht, decide_eq_true (List.mem_map_of_mem hmem)⟩
      by_cases hin : x.name ∈ memberNames g id
      · have hxm := mem_members.2 ⟨hx, subgraph_of_mem_memberNames hx hin⟩
        exact ⟨_, h.mem_interior.2 (Or.inr ⟨x, hxm, rfl⟩), rfl, hkept⟩
      · have hxb := h.mem_bottoms.2 ⟨m, hmem, hb, hin⟩
        exact ⟨_, h.mem_interior.2 (Or.inl ⟨x, hx, hxb, rfl⟩), rfl, hkept⟩
  bottom_of_top := by
    have hreader : ∀ x ∈ g.nodes, ∀ t ∈ x.tops.filter (· ∈ memberNames g id),
        ∃ c ∈ p.interior, c.name = t ∧ x.name ∈ c.bottoms := by
      intro x hx t ht
      obtain ⟨ht, hin⟩ := List.mem_filter.1 ht
      obtain ⟨c, hc, rfl, hb⟩ := hm.bottom_of_top x hx t ht
      have hcm := mem_members.2 ⟨hc, subgraph_of_mem_memberNames hc (of_decide_eq_true hin)⟩
      exact ⟨_, h.mem_interior.2 (Or.inr ⟨c, hcm, rfl⟩), rfl, hb⟩
    intro n hn t ht
    rcases h.mem_interior.1 hn with ⟨x, hx, -, rfl⟩ | ⟨m, hmem, rfl⟩
    · exact hreader x hx t ht
    · exact hreader m (mem_members.1 hmem).1 t ht

/-- The edges of the interior are edges of the graph. -/
theorem feeds_interior (h : Summary g id p) {a b : String} (hf : Node.Feeds p.interior a b) :
    Node.Feeds g.nodes a b := by
  obtain ⟨n, hn, rfl, ha⟩ := hf
  rcases h.mem_interior.1 hn with ⟨x, -, -, rfl⟩ | ⟨m, hmem, rfl⟩
  · cases ha
  · exact ⟨m, (mem_members.1 hmem).1, rfl, ha⟩

theorem not_cyclic_interior (h : Summary g id p) (hc : ¬Node.Cyclic g.nodes) :
    ¬Node.Cyclic p.interior := by
  rintro ⟨a, ha⟩
  exact hc ⟨a, Relation.TransGen.mono (fun _ _ => h.feeds_interior) a a ha⟩

/-! ## Order -/

theorem ordered_interior (h : Summary g id p) (ho : g.isTopologicallyOrdered = true) :
    Graph.orderedAfter [] p.interior = true := by
  obtain ⟨producers, hp, hi⟩ := h.interior_eq
  have hnames : (producers.map (standIn id p.target (memberNames g id))).map Node.name =
      p.bottoms := by
    rw [List.map_map, ← names_of_nodes hp]
    rfl
  have hmembers : Graph.orderedAfter (p.bottoms.reverse ++ [])
      ((members g id).map (interiorNode (memberNames g id))) = true := by
    rw [Node.orderedAfter_map (interiorNode _) (fun _ => rfl) fun _ => rfl]
    refine Node.orderedAfter_filter ho g.nodup (by simp) fun n hn b hb => ?_
    by_cases hin : b ∈ memberNames g id
    · exact Or.inr hin
    · exact Or.inl (by simpa using h.mem_bottoms.2 ⟨n, hn, hb, hin⟩)
  rw [hi, Node.orderedAfter_append, Bool.and_eq_true, hnames]
  refine ⟨Node.orderedAfter_of_sources fun n hn => ?_, hmembers⟩
  obtain ⟨x, -, rfl⟩ := List.mem_map.1 hn
  rfl

end Summary

/-! ## Outputs -/

/-- Some value leaves the partition, as the members do not run in a circle. -/
theorem outputs_ne_nil (hm : Node.Mirrored g.nodes) (hc : ¬Node.Cyclic g.nodes)
    (hid : id ∈ tags g) : outputs g id ≠ [] := by
  intro hnil
  have hfeeds : ∀ a ∈ memberNames g id, ∃ b ∈ memberNames g id, Node.Feeds g.nodes a b := by
    intro a ha
    obtain ⟨n, hn, rfl⟩ := List.mem_map.1 ha
    have hout : n ∉ outputs g id := hnil ▸ List.not_mem_nil
    rw [mem_outputs] at hout
    push Not at hout
    obtain ⟨htops, hinside⟩ := hout hn
    obtain ⟨t, ht⟩ := List.exists_mem_of_ne_nil n.tops htops
    obtain ⟨c, hmem, rfl, hb⟩ := hm.bottom_of_top n (mem_members.1 hn).1 t ht
    exact ⟨c.name, hinside _ ht, c, hmem, rfl, hb⟩
  obtain ⟨n, hn, hs⟩ := mem_tags.1 hid
  have hne : memberNames g id ≠ [] := List.ne_nil_of_mem (mem_memberNames_of_subgraph hn hs)
  exact hc (Node.cyclic_of_feeding hne hfeeds)

/-! ## The graph -/

/-- The interior of each partition of a valid graph is a valid graph, which holds an input for each
producer and then the members with the readers they have among themselves. Some member is an output,
and the interior is in order if the graph is. -/
theorem validate_subgraph {ps : Dict Partition} (hg : g.validate = .ok ())
    (ht : tagged g = .ok ps) (hp : ps.get? id = some p) :
    ∃ s, p.subgraph = .ok s ∧ s.validate = .ok () ∧ Excerpt g id p s ∧
      (g.isTopologicallyOrdered = true → s.isTopologicallyOrdered = true) := by
  obtain ⟨hm, hc⟩ := Graph.validate_eq_ok_iff_acyclic.1 hg
  have h := summary_of_get? ht hp
  obtain ⟨s, hs, -⟩ := h.exists_subgraph
  have hnodes : s.nodes = p.interior := (Graph.ofNodes_eq_ok hs).2.1
  have hv : s.validate = .ok () := by
    rw [Graph.validate_eq_ok_iff_acyclic, hnodes]
    exact ⟨h.mirrored_interior hm, h.not_cyclic_interior hc⟩
  have hexcerpt : Excerpt g id p s :=
    { nodup_inputNames := by
        rw [h.inputNames_eq]
        exact h.nodup_bottoms
      mem_inputNames := fun b => by rw [h.inputNames_eq, h.mem_bottoms_iff_exists]
      nodes_eq := hnodes ▸ h.interior_excerpt
      exists_output := by
        obtain ⟨n, hn⟩ := List.exists_mem_of_ne_nil _
          (outputs_ne_nil hm hc ((tagged_eq_ok ht).1 hp).1)
        exact ⟨n, mem_members_of_mem_outputs hn, h.mem_outputNames.2 ⟨n, hn, rfl⟩⟩ }
  refine ⟨s, hs, hv, hexcerpt, fun ho => ?_⟩
  rw [Graph.isTopologicallyOrdered, hnodes]
  exact h.ordered_interior ho

theorem validate_subgraph_braid :
    braid.validate = .ok () ∧ ∃ ps p s, tagged braid = .ok ps ∧ ps.get? "xp0" = some p ∧
      p.subgraph = .ok s ∧ s.validate = .ok () ∧ Excerpt braid "xp0" p s ∧
        s.isTopologicallyOrdered = true := by
  have hg : braid.validate = .ok () := by decide +kernel
  have hsome : (tagged braid).map (fun ps => (ps.get? "xp0").isSome) = .ok true := by
    decide +kernel
  obtain ⟨ps, hps, hsome⟩ := Outcome.map_eq_ok.1 hsome
  obtain ⟨p, hp⟩ := Option.isSome_iff_exists.1 hsome
  obtain ⟨s, hs, hv, hexcerpt, ho⟩ := validate_subgraph hg hps hp
  exact ⟨hg, ps, p, s, hps, hp, hs, hv, hexcerpt, ho (by decide +kernel)⟩

end Dataflow.Partition
