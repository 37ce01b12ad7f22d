import Dataflow.Graph.Draft
import Dataflow.Proofs.Graph.Sorting

/-!
# Valid graphs

A graph is valid when every edge is recorded on both of its ends and its nodes can be put into
topological order. `Mirrored` states the former of a list of nodes and does not depend on the
order of the list, so that it may be carried from one arrangement of the nodes to another.
-/

namespace Dataflow

namespace Node

/-- Every edge between the nodes of the list is recorded on both of its ends. -/
structure Mirrored (nodes : List Node) : Prop where
  top_of_bottom : ∀ n ∈ nodes, ∀ b ∈ n.bottoms, ∃ p ∈ nodes, p.name = b ∧ n.name ∈ p.tops
  bottom_of_top : ∀ n ∈ nodes, ∀ t ∈ n.tops, ∃ c ∈ nodes, c.name = t ∧ n.name ∈ c.bottoms

theorem Mirrored.perm {nodes nodes' : List Node} (h : Mirrored nodes) (hp : nodes.Perm nodes') :
    Mirrored nodes' where
  top_of_bottom n hn b hb := by
    obtain ⟨p, hm, he⟩ := h.top_of_bottom n (hp.mem_iff.2 hn) b hb
    exact ⟨p, hp.mem_iff.1 hm, he⟩
  bottom_of_top n hn t ht := by
    obtain ⟨c, hm, he⟩ := h.bottom_of_top n (hp.mem_iff.2 hn) t ht
    exact ⟨c, hp.mem_iff.1 hm, he⟩

theorem eq_of_name_eq {nodes : List Node} (hd : (nodes.map name).Nodup) {m n : Node}
    (hm : m ∈ nodes) (hn : n ∈ nodes) (h : m.name = n.name) : m = n :=
  List.inj_on_of_nodup_map hd hm hn h

theorem of_find?_name {nodes : List Node} {i : String} {n : Node}
    (h : nodes.find? (·.name = i) = some n) : n ∈ nodes ∧ n.name = i :=
  ⟨List.mem_of_find?_eq_some h, by simpa using List.find?_some h⟩

theorem find?_name_eq_some_iff {nodes : List Node} (hd : (nodes.map name).Nodup) {i : String}
    {n : Node} : nodes.find? (·.name = i) = some n ↔ n ∈ nodes ∧ n.name = i := by
  refine ⟨of_find?_name, ?_⟩
  rintro ⟨hn, rfl⟩
  have hs : (nodes.find? (·.name = n.name)).isSome := by
    rw [List.find?_isSome]
    exact ⟨n, hn, by simp⟩
  obtain ⟨m, hm⟩ := Option.isSome_iff_exists.1 hs
  obtain ⟨hmem, hname⟩ := of_find?_name hm
  rw [hm, eq_of_name_eq hd hmem hn hname]

end Node

namespace Graph

theorem get?_eq_some_iff {g : Graph} {name : String} {n : Node} :
    g.get? name = some n ↔ n ∈ g.nodes ∧ n.name = name :=
  Node.find?_name_eq_some_iff g.nodup

theorem exists_get?_of_mem_names {g : Graph} {name : String} (h : name ∈ g.names) :
    ∃ n, g.get? name = some n := by
  obtain ⟨n, hn, he⟩ := List.mem_map.1 h
  exact ⟨n, get?_eq_some_iff.2 ⟨hn, he⟩⟩

theorem contains_iff_mem_names {g : Graph} {name : String} :
    g.contains name = true ↔ name ∈ g.names := by
  rw [contains, Option.isSome_iff_exists]
  refine ⟨?_, exists_get?_of_mem_names⟩
  rintro ⟨n, hn⟩
  obtain ⟨hm, rfl⟩ := get?_eq_some_iff.1 hn
  exact List.mem_map_of_mem hm

theorem node_eq_ok {g : Graph} {name : String} {n : Node} :
    g.node name = .ok n ↔ n ∈ g.nodes ∧ n.name = name := by
  rw [← get?_eq_some_iff, node]
  cases g.get? name <;> simp

theorem notMem_names_of_node_eq_error {g : Graph} {name : String} {e : GraphError}
    (h : g.node name = .error e) : name ∉ g.names := by
  intro hm
  obtain ⟨n, hn⟩ := exists_get?_of_mem_names hm
  rw [node, hn] at h
  cases h

/-! ## Making graphs -/

theorem ofNodes_eq_ok {name : String} {nodes : List Node} {output : Option CompilerOutput}
    {g : Graph} (h : ofNodes name nodes output = .ok g) :
    g.name = name ∧ g.nodes = nodes ∧ g.compilerOutput = output := by
  unfold ofNodes at h
  split at h
  · cases h
  · split at h
    · cases h
    · cases h
      exact ⟨rfl, rfl, rfl⟩

theorem exists_ofNodes_eq_ok (name : String) {nodes : List Node}
    (output : Option CompilerOutput) (hd : (nodes.map Node.name).Nodup)
    (hc : ∀ n ∈ nodes, ∀ b ∈ n.bottoms, b ∈ nodes.map Node.name) :
    ∃ g, ofNodes name nodes output = .ok g := by
  obtain ⟨index, hi⟩ := Node.exists_positions hd
  have hc' := (Node.firstDangling?_eq_none_iff hi).2 hc
  unfold ofNodes
  split
  · next h => rw [hi] at h; cases h
  · next h =>
    rw [hi] at h
    cases h
    split
    · next h => rw [hc'] at h; cases h
    · exact ⟨_, rfl⟩

theorem ofNodes_self (g : Graph) : ofNodes g.name g.nodes g.compilerOutput = .ok g := by
  obtain ⟨g', h⟩ := exists_ofNodes_eq_ok g.name g.compilerOutput g.nodup g.closed
  obtain ⟨hn, hns, ho⟩ := ofNodes_eq_ok h
  rw [h]
  cases g
  cases g'
  simp_all

/-! ## Validation -/

theorem checkBottoms_eq_ok {g : Graph} {n : Node} :
    g.checkBottoms n = .ok () ↔
      ∀ b ∈ n.bottoms, ∃ p ∈ g.nodes, p.name = b ∧ n.name ∈ p.tops := by
  rw [checkBottoms, Outcome.forM_eq_ok]
  refine forall₂_congr fun b _ => ?_
  constructor
  · intro h
    split at h
    · cases h
    · next p hp =>
      split at h
      · next ht =>
        obtain ⟨hm, he⟩ := get?_eq_some_iff.1 hp
        exact ⟨p, hm, he, ht⟩
      · cases h
  · rintro ⟨p, hm, he, ht⟩
    rw [get?_eq_some_iff.2 ⟨hm, he⟩]
    simp [ht]

theorem checkTops_eq_ok {g : Graph} {n : Node} :
    g.checkTops n = .ok () ↔
      ∀ t ∈ n.tops, ∃ c ∈ g.nodes, c.name = t ∧ n.name ∈ c.bottoms := by
  rw [checkTops, Outcome.forM_eq_ok]
  refine forall₂_congr fun t _ => ?_
  constructor
  · intro h
    split at h
    · cases h
    · next c hc =>
      split at h
      · next hb =>
        obtain ⟨hm, he⟩ := get?_eq_some_iff.1 hc
        exact ⟨c, hm, he, hb⟩
      · cases h
  · rintro ⟨c, hm, he, hb⟩
    rw [get?_eq_some_iff.2 ⟨hm, he⟩]
    simp [hb]

theorem validate_eq_ok {g : Graph} :
    g.validate = .ok () ↔
      Node.Mirrored g.nodes ∧ ∃ order, Node.topologicalOrder g.nodes = .ok order := by
  rw [validate, Outcome.bind_eq_ok]
  constructor
  · rintro ⟨⟨⟩, hm, ho⟩
    rw [Outcome.forM_eq_ok] at hm
    have hboth : ∀ n ∈ g.nodes, g.checkBottoms n = .ok () ∧ g.checkTops n = .ok () := by
      intro n hn
      obtain ⟨⟨⟩, hb, ht⟩ := Outcome.bind_eq_ok.1 (hm n hn)
      exact ⟨hb, ht⟩
    refine ⟨⟨fun n hn => checkBottoms_eq_ok.1 (hboth n hn).1,
      fun n hn => checkTops_eq_ok.1 (hboth n hn).2⟩, ?_⟩
    obtain ⟨order, ho, -⟩ := Outcome.map_eq_ok.1 ho
    exact ⟨order, ho⟩
  · rintro ⟨hm, order, ho⟩
    refine ⟨(), Outcome.forM_eq_ok.2 fun n hn => ?_, ?_⟩
    · exact Outcome.bind_eq_ok.2 ⟨(), checkBottoms_eq_ok.2 (hm.top_of_bottom n hn),
        checkTops_eq_ok.2 (hm.bottom_of_top n hn)⟩
    · rw [ho]
      rfl

/-- A graph whose nodes stand in order is valid as soon as its edges are mirrored. -/
theorem validate_of_ordered {g : Graph} (hm : Node.Mirrored g.nodes)
    (ho : g.isTopologicallyOrdered = true) : g.validate = .ok () :=
  validate_eq_ok.2 ⟨hm, _, Node.topologicalOrder_eq_ok.2
    ⟨_, Node.arranged_of_ordered g.nodup ho, rfl⟩⟩

theorem validate_of_build {d : Draft} {g : Graph} (h : d.build = .ok g) :
    g.validate = .ok () ∧ g.isTopologicallyOrdered = true := by
  obtain ⟨linked, -, h⟩ := Outcome.bind_eq_ok.1 h
  obtain ⟨sorted, hs, h⟩ := Outcome.bind_eq_ok.1 h
  obtain ⟨g', hg, h⟩ := Outcome.bind_eq_ok.1 h
  obtain ⟨⟨⟩, hv, h⟩ := Outcome.bind_eq_ok.1 h
  cases h
  refine ⟨hv, ?_⟩
  rw [isTopologicallyOrdered, (ofNodes_eq_ok hg).2.1]
  exact (Node.sortTopologically_eq_ok hs).2

/-- A valid graph in order is what its own nodes build, if they list their readers as drafts do. -/
theorem build_of_ordered {g : Graph} (hl : Draft.link g.nodes = .ok g.nodes)
    (hv : g.validate = .ok ()) (ho : g.isTopologicallyOrdered = true) :
    (Draft.mk g.name g.nodes g.compilerOutput).build = .ok g := by
  have hs : Node.sortTopologically g.nodes = .ok g.nodes :=
    Node.sortTopologically_of_ordered g.nodup ho
  rw [Draft.build]
  simp only [hl, hs, ofNodes_self, hv, Outcome.ok_bind]
  rfl

end Graph

end Dataflow
