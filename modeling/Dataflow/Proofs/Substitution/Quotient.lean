import Dataflow.Proofs.Graph.Cycles
import Dataflow.Proofs.Substitution.WellFormed

/-!
# The quotient of a graph by its partitions

Merging the members of each partition of a device into one vertex gives a quotient of the graph. A
rewrite can put its nodes into order exactly if the quotient has no cycle, and then its kept and
collapsed nodes depend on each other as the vertices of the quotient do.

The rewritten graph has accessors besides, which stand between a collapsed node and its readers.
An edge of the quotient is therefore one edge of the rewritten graph or two, by way of an accessor.
Conversely every edge of the rewritten graph is one of the quotient, but for those from a collapsed
node to its own accessors, which lie within a vertex and lead nowhere by themselves.
-/

namespace Dataflow

open Relation

/-- The vertex of a node when the partitions of a device are merged: its partition, or itself. -/
def Node.vertex (target : String) (n : Node) : String :=
  if n.target = target then n.subgraph.getD n.name else n.name

def Node.Together (target : String) (m n : Node) : Prop :=
  m.target = target ∧ n.target = target ∧ ∃ id, m.subgraph = some id ∧ n.subgraph = some id

/-- The graph with the members of each partition of a device merged has an edge from `u` to `v`. -/
def Graph.Merged (g : Graph) (target u v : String) : Prop :=
  ∃ m ∈ g.nodes, ∃ n ∈ g.nodes, m.name ∈ n.bottoms ∧ ¬m.Together target n ∧
    m.vertex target = u ∧ n.vertex target = v

/-- The node `v` of the list reads `u`, or it reads one of the accessors, which reads `u`. -/
def Node.DependsOn (nodes : List Node) (accessors : List String) (v u : String) : Prop :=
  Feeds nodes u v ∨ ∃ a ∈ accessors, Feeds nodes u a ∧ Feeds nodes a v

namespace Substitution.Context

open Dataflow.Partition

variable {c : Context} {new : List (String × Partition)} {net : List Node}

namespace Contraction

variable (h : Contraction c new net)

include h

/-! ## Vertices -/

theorem becomes_vertex {n : Node} (hn : n ∈ c.graph.nodes) :
    Becomes c new n.name (n.vertex c.options.target) := by
  by_cases hc : c.claims n = true
  · have htarget := ((claims_iff_of_tagged h.tagged hn).1 hc).2
    obtain ⟨e, he, hs⟩ := h.replaced.complete _ hn hc
    rw [Node.vertex, if_pos htarget, hs]
    exact .collapsed e he (mem_memberNames_of_subgraph hn hs)
  · have hv : n.vertex c.options.target = n.name := by
      rw [Node.vertex]
      split
      · next htarget =>
        cases hs : n.subgraph with
        | none => rfl
        | some id =>
            exact absurd ((claims_iff_of_tagged h.tagged hn).2 ⟨by rw [hs]; rfl, htarget⟩) hc
      · rfl
    rw [hv]
    exact .kept fun e he => h.notMem_memberNames_of_kept hn (by simpa using hc) he

theorem apart_iff {m n : Node} (hm : m ∈ c.graph.nodes) (hn : n ∈ c.graph.nodes) :
    Apart c new m.name n.name ↔ ¬m.Together c.options.target n := by
  constructor
  · rintro ha ⟨htarget, -, id, hsm, hsn⟩
    obtain ⟨e, he, hs⟩ := h.replaced.complete _ hm
      ((claims_iff_of_tagged h.tagged hm).2 ⟨by rw [hsm]; rfl, htarget⟩)
    rw [hs] at hsm
    exact ha e he (mem_memberNames_of_subgraph hm hs)
      (mem_memberNames_of_subgraph hn (hsn.trans hsm.symm))
  · intro hnot e he hme hne
    have hsm := subgraph_of_mem_memberNames hm hme
    have hsn := subgraph_of_mem_memberNames hn hne
    have htarget := fun {x : Node} (hx : x ∈ c.graph.nodes) (hs : x.subgraph = some e.1) =>
      ((claims_iff_of_tagged h.tagged hx).1 (h.replaced.claims_of_subgraph he hs)).2
    exact hnot ⟨htarget hm hsm, htarget hn hsn, e.1, hsm, hsn⟩

/-- The edges of the quotient are the reads across boundaries. -/
theorem merged_iff {u v : String} :
    c.graph.Merged c.options.target u v ↔ ∃ b, Reads c new b v ∧ Becomes c new b u := by
  constructor
  · rintro ⟨m, hm, n, hn, hb, hnot, rfl, rfl⟩
    exact ⟨m.name, ⟨n, hn, hb, (h.apart_iff hm hn).2 hnot, h.becomes_vertex hn⟩,
      h.becomes_vertex hm⟩
  · rintro ⟨b, ⟨n, hn, hb, ha, hv⟩, hu⟩
    obtain ⟨m, hm, rfl⟩ := List.mem_map.1 (c.graph.closed n hn b hb)
    exact ⟨m, hm, n, hn, hb, (h.apart_iff hm hn).1 ha,
      h.becomes_unique (h.becomes_vertex hm) hu, h.becomes_unique (h.becomes_vertex hn) hv⟩

theorem becomes_id {e : String × Partition} (he : e ∈ new) : Becomes c new e.1 e.1 :=
  .kept fun _ _ => h.id_notMem_memberNames he

theorem becomes_becomes {t t' : String} (hb : Becomes c new t t') : Becomes c new t' t' := by
  cases hb with
  | kept hk => exact .kept hk
  | collapsed e he _ => exact h.becomes_id he

/-! ## Edges of the rewritten graph -/

omit h in
theorem feeds_map_relinked (es : List (String × Partition)) :
    Node.Feeds (net.map (c.relinked es)) = Node.Feeds net :=
  Node.feeds_map _ (relinked_name es) (relinked_bottoms es) net

/-- The kept and the collapsed nodes are those that are no accessors. -/
theorem kept_or_collapsed {x : Node} (hx : x ∈ net) (ha : x.name ∉ c.accessorNames new) :
    (x ∈ c.graph.nodes ∧ c.claims x = false) ∨ ∃ e ∈ new, c.collapse e.2 = .ok x := by
  cases h.mem_net.1 hx with
  | kept hx' hc => exact Or.inl ⟨hx', hc⟩
  | collapsed e he hx' => exact Or.inr ⟨e, he, hx'⟩
  | accessor e he hx' =>
      exact absurd (List.mem_flatMap.2 ⟨e, he, List.mem_map_of_mem hx'⟩) ha

/-- An accessor has the name of a member, and reads the collapsed node only. -/
theorem exists_of_mem_accessorNames {a : String} (ha : a ∈ c.accessorNames new) :
    ∃ e ∈ new, a ∈ Partition.memberNames c.graph e.1 ∧ ∀ b, Node.Feeds net b a ↔ b = e.1 := by
  obtain ⟨e, he, hmem⟩ := List.mem_flatMap.1 ha
  obtain ⟨x, hx, rfl⟩ := List.mem_map.1 hmem
  obtain ⟨m, hm, hn, hbot, -⟩ := h.accessor_spec he hx
  have hnet : x ∈ net := h.mem_net.2 (.accessor e he hx)
  refine ⟨e, he, hn ▸ List.mem_map_of_mem (mem_outputs.1 hm).1, fun b => ?_⟩
  rw [← List.mem_singleton, ← hbot]
  constructor
  · rintro ⟨y, hy, hname, hb⟩
    rwa [Node.eq_of_name_eq h.nodup_net hy hnet hname] at hb
  · exact fun hb => ⟨x, hnet, rfl, hb⟩

/-- A name that is read across a boundary and belongs to a collapsed partition is that of one of its
accessors. -/
theorem mem_accessorNames_of_reads (hm : Node.Mirrored c.graph.nodes) {b t : String}
    (hr : Reads c new b t) {e : String × Partition} (he : e ∈ new)
    (hb : b ∈ Partition.memberNames c.graph e.1) : b ∈ c.accessorNames new := by
  obtain ⟨a, ha, rfl, -⟩ := h.exists_standsFor_of_reads hm hr
  by_contra hacc
  rcases h.kept_or_collapsed ha hacc with ⟨ha', hc⟩ | ⟨e', he', ha'⟩
  · exact h.notMem_memberNames_of_kept ha' hc he hb
  · obtain ⟨attrs, rfl⟩ := h.collapsed_spec he' ha'
    exact h.id_notMem_memberNames he' hb

/-- What a node becomes is no accessor. -/
theorem notMem_accessorNames_of_becomes {t t' : String} (hb : Becomes c new t t') :
    t' ∉ c.accessorNames new := by
  intro hacc
  obtain ⟨e, he, hmem, -⟩ := h.exists_of_mem_accessorNames hacc
  have hid := h.becomes_unique (h.becomes_becomes hb) (.collapsed e he hmem)
  exact h.id_notMem_memberNames he (hid ▸ hmem)

/-- A kept or collapsed node reads what is read across a boundary in its name. -/
theorem feeds_iff_reads {b t : String} (ht : t ∉ c.accessorNames new) :
    Node.Feeds net b t ↔ Reads c new b t := by
  constructor
  · rintro ⟨x, hx, rfl, hb⟩
    exact (h.mem_bottoms_iff (h.kept_or_collapsed hx ht)).1 hb
  · intro hr
    obtain ⟨n, hn, -, -, hbec⟩ := id hr
    obtain ⟨x, hx, rfl, hkind⟩ := h.exists_of_becomes hn hbec
    exact ⟨x, hx, rfl, (h.mem_bottoms_iff hkind).2 hr⟩

/-- The vertices of the quotient are the names of the kept and collapsed nodes. -/
theorem exists_vertex_iff {u : String} :
    (∃ n ∈ c.graph.nodes, n.vertex c.options.target = u) ↔
      u ∈ net.map Node.name ∧ u ∉ c.accessorNames new := by
  constructor
  · rintro ⟨n, hn, rfl⟩
    have hb := h.becomes_vertex hn
    obtain ⟨x, hx, hname, -⟩ := h.exists_of_becomes hn hb
    exact ⟨hname ▸ List.mem_map_of_mem hx, h.notMem_accessorNames_of_becomes hb⟩
  · rintro ⟨hu, hacc⟩
    obtain ⟨x, hx, rfl⟩ := List.mem_map.1 hu
    rcases h.kept_or_collapsed hx hacc with ⟨hx', hc⟩ | ⟨e, he, hx'⟩
    · have hk : Becomes c new x.name x.name :=
        .kept fun e he => h.notMem_memberNames_of_kept hx' hc he
      exact ⟨x, hx', h.becomes_unique (h.becomes_vertex hx') hk⟩
    · obtain ⟨attrs, rfl⟩ := h.collapsed_spec he hx'
      obtain ⟨n, hn, hs⟩ := mem_tags.1 ((tagged_eq_ok h.tagged).1 (h.mem_new_iff.1 he).1).1
      have hb := Becomes.collapsed (c := c) e he (mem_memberNames_of_subgraph hn hs)
      exact ⟨n, hn, h.becomes_unique (h.becomes_vertex hn) hb⟩

/-- A kept or collapsed node is its own vertex. -/
theorem becomes_self {u : String} (hu : u ∈ net.map Node.name) (hacc : u ∉ c.accessorNames new) :
    Becomes c new u u := by
  obtain ⟨n, hn, rfl⟩ := h.exists_vertex_iff.2 ⟨hu, hacc⟩
  exact h.becomes_becomes (h.becomes_vertex hn)

theorem notMem_accessorNames_of_merged {u v : String}
    (hmerged : c.graph.Merged c.options.target u v) :
    u ∉ c.accessorNames new ∧ v ∉ c.accessorNames new := by
  obtain ⟨b, ⟨n, -, -, -, hv⟩, hu⟩ := h.merged_iff.1 hmerged
  exact ⟨h.notMem_accessorNames_of_becomes hu, h.notMem_accessorNames_of_becomes hv⟩

/-! ## Dependencies and cycles -/

/-- An edge of the rewritten graph leads from a collapsed node to an accessor of its own, or is one
of the quotient. -/
theorem feeds_cases {a b : String} (hf : Node.Feeds net a b) :
    (∃ e ∈ new, a = e.1 ∧ b ∈ Partition.memberNames c.graph e.1) ∨
      ∃ u, Becomes c new a u ∧ Becomes c new b b ∧ c.graph.Merged c.options.target u b := by
  by_cases hacc : b ∈ c.accessorNames new
  · obtain ⟨e, he, hmem, hbot⟩ := h.exists_of_mem_accessorNames hacc
    exact Or.inl ⟨e, he, (hbot a).1 hf, hmem⟩
  · have hr := (h.feeds_iff_reads hacc).1 hf
    obtain ⟨n, hn, hb, -, hbec⟩ := id hr
    obtain ⟨m, hmem, rfl⟩ := List.mem_map.1 (c.graph.closed n hn a hb)
    exact Or.inr ⟨_, h.becomes_vertex hmem, h.becomes_becomes hbec,
      h.merged_iff.2 ⟨m.name, hr, h.becomes_vertex hmem⟩⟩

/-- A chain of edges of the rewritten graph is one step within a vertex, or it leads from vertex to
vertex. -/
theorem merged_of_transGen_feeds {a b : String} (hf : TransGen (Node.Feeds net) a b) :
    (∃ e ∈ new, a = e.1 ∧ b ∈ Partition.memberNames c.graph e.1) ∨
      ∃ u v, Becomes c new a u ∧ Becomes c new b v ∧
        TransGen (c.graph.Merged c.options.target) u v := by
  induction hf with
  | single hf =>
      exact (h.feeds_cases hf).imp_right fun ⟨u, hu, hb, hmerged⟩ =>
        ⟨u, _, hu, hb, .single hmerged⟩
  | @tail b d _ hf ih =>
      rcases h.feeds_cases hf with ⟨e, he, rfl, hd⟩ | ⟨w, hw, hd, hmerged⟩
      · -- the last step stays within the vertex of a collapsed node
        rcases ih with ⟨e', he', -, hb⟩ | ⟨u, v, hu, hv, hchain⟩
        · exact absurd hb (h.id_notMem_memberNames he)
        · rw [h.becomes_unique hv (h.becomes_id he)] at hchain
          exact Or.inr ⟨u, e.1, hu, .collapsed e he hd, hchain⟩
      · rcases ih with ⟨e, he, rfl, hb⟩ | ⟨u, v, hu, hv, hchain⟩
        · rw [h.becomes_unique hw (.collapsed e he hb)] at hmerged
          exact Or.inr ⟨e.1, d, h.becomes_id he, hd, .single hmerged⟩
        · rw [h.becomes_unique hw hv] at hmerged
          exact Or.inr ⟨u, d, hu, hd, hchain.tail hmerged⟩

section

variable (hm : Node.Mirrored c.graph.nodes)

include hm

/-- The kept and collapsed nodes depend on each other along the edges of the quotient. -/
theorem dependsOn_iff {u v : String} (hu : u ∉ c.accessorNames new)
    (hv : v ∉ c.accessorNames new) :
    Node.DependsOn net (c.accessorNames new) v u ↔ c.graph.Merged c.options.target u v := by
  rw [h.merged_iff]
  constructor
  · rintro (hf | ⟨a, hacc, hua, hav⟩)
    · obtain ⟨x, hx, -, hb⟩ := id hf
      exact ⟨u, (h.feeds_iff_reads hv).1 hf, h.becomes_self (h.closed_net hm x hx u hb) hu⟩
    · obtain ⟨e, he, hmem, hbot⟩ := h.exists_of_mem_accessorNames hacc
      rw [(hbot u).1 hua]
      exact ⟨a, (h.feeds_iff_reads hv).1 hav, .collapsed e he hmem⟩
  · rintro ⟨b, hr, hbec⟩
    have hbv : Node.Feeds net b v := (h.feeds_iff_reads hv).2 hr
    cases hbec with
    | kept => exact Or.inl hbv
    | collapsed e he hmem =>
        have hacc := h.mem_accessorNames_of_reads hm hr he hmem
        obtain ⟨e', he', hmem', hbot⟩ := h.exists_of_mem_accessorNames hacc
        obtain rfl := h.eq_of_mem_memberNames he he' hmem hmem'
        exact Or.inr ⟨b, hacc, (hbot e.1).2 rfl, hbv⟩

/-- An edge of the quotient is an edge of the rewritten graph, or two by way of an accessor. -/
theorem transGen_feeds_of_merged {u v : String}
    (hmerged : c.graph.Merged c.options.target u v) : TransGen (Node.Feeds net) u v := by
  obtain ⟨hu, hv⟩ := h.notMem_accessorNames_of_merged hmerged
  rcases (h.dependsOn_iff hm hu hv).2 hmerged with hf | ⟨a, -, hua, hav⟩
  · exact .single hf
  · exact .tail (.single hua) hav

/-- The rewritten graph has a cycle exactly if the quotient has one. -/
theorem cyclic_net_iff :
    Node.Cyclic net ↔ ∃ u, TransGen (c.graph.Merged c.options.target) u u := by
  constructor
  · rintro ⟨a, hf⟩
    rcases h.merged_of_transGen_feeds hf with ⟨e, he, rfl, hmem⟩ | ⟨u, v, hu, hv, hchain⟩
    · exact absurd hmem (h.id_notMem_memberNames he)
    · rw [h.becomes_unique hv hu] at hchain
      exact ⟨u, hchain⟩
  · rintro ⟨u, hchain⟩
    exact ⟨u, TransGen.closed (fun _ _ => h.transGen_feeds_of_merged hm) _ _ hchain⟩

/-- The nodes of a contraction can be sorted exactly if the quotient has no cycle. -/
theorem exists_sorted_iff :
    (∃ sorted, Node.sortTopologically (net.map (c.relinked (Dict.ofList new).entries)) =
        .ok sorted) ↔ ¬∃ u, TransGen (c.graph.Merged c.options.target) u u := by
  have hnames := map_name_relinked (c := c) (Dict.ofList new).entries net
  rw [Node.exists_sortTopologically_iff (hnames ▸ h.nodup_net) (h.closed_net_relinked hm),
    Node.Cyclic, feeds_map_relinked]
  exact not_congr (h.cyclic_net_iff hm)

end

end Contraction

end Substitution.Context

namespace Builder

open Substitution

variable {g h : Graph} {o : BuildOptions} {r : BuildReport} {v : Bool} {ps : Dict Partition}

/-- The kept and collapsed nodes of a rewritten graph are the vertices of the quotient, and they
depend on each other along its edges. -/
theorem dependsOn_of_build (hg : g.validate = .ok ())
    (hb : ({ verify := v } : Builder).build g o = .ok (h, r)) :
    (∀ u, (u ∈ h.names ∧ u ∉ r.accessors) ↔ ∃ n ∈ g.nodes, n.vertex o.target = u) ∧
      ∀ u w, u ∉ r.accessors → w ∉ r.accessors →
        (Node.DependsOn h.nodes r.accessors w u ↔ g.Merged o.target u w) := by
  obtain ⟨ps, new, net, hcon, hperm, -, -, -, rfl⟩ := exists_contraction hb
  have hm : Node.Mirrored g.nodes := (Graph.validate_eq_ok.1 hg).1
  have hnames : ∀ u, u ∈ h.names ↔ u ∈ net.map Node.name := by
    intro u
    rw [Graph.names, (hperm.map Node.name).mem_iff, Context.map_name_relinked]
  have hfeeds : Node.Feeds h.nodes = Node.Feeds net := by
    rw [Node.feeds_eq_of_perm hperm, Context.Contraction.feeds_map_relinked]
  refine ⟨fun u => ?_, fun u w hu hw => ?_⟩
  · rw [hnames]
    exact hcon.exists_vertex_iff.symm
  · rw [Node.DependsOn, hfeeds]
    exact hcon.dependsOn_iff hm hu hw

/-- A build of a valid graph by its tags, where no name of a partition is taken, succeeds or finds a
cycle, as the quotient decides. -/
theorem build_cases (hg : g.validate = .ok ()) (ho : o.validate = .ok ())
    (hps : Partition.tagged g = .ok ps)
    (hfree : ∀ id p, ps.get? id = some p → p.target = o.target → id ∉ g.names) (v : Bool) :
    ((∃ h r, ({ verify := v } : Builder).build g o = .ok (h, r)) ∧
        ¬∃ u, TransGen (g.Merged o.target) u u) ∨
      ((∃ n, ({ verify := v } : Builder).build g o = .error (.graph (.cycle n))) ∧
        ∃ u, TransGen (g.Merged o.target) u u) := by
  have hm : Node.Mirrored g.nodes := (Graph.validate_eq_ok.1 hg).1
  rcases Context.substitute_of_tagged (c := contextOf g o ps) hps with
    ⟨new, s, hs, hreached, hcon⟩ | ⟨n, hn, id, hid, htarget, htaken, -⟩
  · have hsorted := hcon.exists_sorted_iff hm
    rcases hcon.sorted_cases hm with ⟨sorted, hsort, hd, hms⟩ | ⟨n, hsort⟩
    · obtain ⟨h, hr, hv, -⟩ := hcon.exists_rewrite_eq_ok hm hs hreached hsort hd hms g.name
      have hb := build_eq_ok.2 ⟨ho, fun _ : v = true => hg, ⟨ps, hps, hr⟩, fun _ => hv⟩
      exact Or.inl ⟨⟨h, _, hb⟩, hsorted.1 ⟨sorted, hsort⟩⟩
    · refine Or.inr ⟨⟨n, ?_⟩, not_not.1 fun hacyc => ?_⟩
      · rw [build_of_valid v hg ho, Partitioner.byTag, hps]
        have hr := hcon.rewrite_eq hm hs hreached g.name
        rw [hsort, Outcome.error_bind] at hr
        simp only [Except.mapError, Outcome.ok_bind, hr, Outcome.error_bind]
      · obtain ⟨sorted, hok⟩ := hsorted.2 hacyc
        rw [hok] at hsort
        cases hsort
  · obtain ⟨p, hp, hsum⟩ := Partition.exists_get?_of_subgraph hps hn hid
    have hpt := hsum.target_eq n (Partition.mem_members.2 ⟨hn, hid⟩)
    exact absurd htaken (hfree id p hp (hpt.symm.trans htarget))

/-- A build finds a cycle exactly if the quotient of the graph by the partitions of the device has
one. Otherwise it succeeds, and the kept and collapsed nodes of the result are the vertices of the
quotient and depend on each other along its edges. -/
theorem build_eq_cycle_iff (hg : g.validate = .ok ()) (ho : o.validate = .ok ())
    (hps : Partition.tagged g = .ok ps)
    (hfree : ∀ id p, ps.get? id = some p → p.target = o.target → id ∉ g.names) (v : Bool) :
    ((∃ n, ({ verify := v } : Builder).build g o = .error (.graph (.cycle n))) ↔
        ∃ u, TransGen (g.Merged o.target) u u) ∧
      ((¬∃ u, TransGen (g.Merged o.target) u u) →
        ∃ h r, ({ verify := v } : Builder).build g o = .ok (h, r) ∧
          (∀ u, (u ∈ h.names ∧ u ∉ r.accessors) ↔ ∃ n ∈ g.nodes, n.vertex o.target = u) ∧
            ∀ u w, u ∉ r.accessors → w ∉ r.accessors →
              (Node.DependsOn h.nodes r.accessors w u ↔ g.Merged o.target u w)) := by
  rcases build_cases hg ho hps hfree v with ⟨⟨h, r, hb⟩, hacyc⟩ | ⟨hcycle, hcyc⟩
  · refine ⟨iff_of_false ?_ hacyc, fun _ => ⟨h, r, hb, dependsOn_of_build hg hb⟩⟩
    rintro ⟨n, hn⟩
    rw [hb] at hn
    cases hn
  · exact ⟨iff_of_true hcycle hcyc, fun hacyc => absurd hcyc hacyc⟩

/-- A partition of two members on `dpu` around a node that is kept: it reads the first of them and
is read by the second. -/
def detour : Graph where
  name := "detour"
  nodes := [
    { name := "x", types := ["Input"], shapes := .tensor ⟨[1]⟩, tops := ["r"] },
    { name := "r", types := ["Relu"], shapes := .tensor ⟨[1]⟩, bottoms := ["x"],
      tops := ["mid", "s"], subgraph := some "xp0", target := "dpu" },
    { name := "mid", types := ["Sigmoid"], shapes := .tensor ⟨[1]⟩, bottoms := ["r"],
      tops := ["s"] },
    { name := "s", types := ["Add"], shapes := .tensor ⟨[1]⟩, bottoms := ["r", "mid"],
      subgraph := some "xp0", target := "dpu" }]
  compilerOutput := none
  nodup := by simp
  closed := by simp

theorem build_detour : ∃ ps,
    detour.validate = .ok () ∧
      ({ target := "dpu", collapsedType := "DPU" } : BuildOptions).validate = .ok () ∧
        Partition.tagged detour = .ok ps ∧
          (∀ id p, ps.get? id = some p → p.target = "dpu" → id ∉ detour.names) ∧
            (∃ n, ({} : Builder).build detour { target := "dpu", collapsedType := "DPU" } =
              .error (.graph (.cycle n))) ∧
              ∃ u, TransGen (detour.Merged "dpu") u u := by
  have hg : detour.validate = .ok () := by decide +kernel
  have ho : ({ target := "dpu", collapsedType := "DPU" } : BuildOptions).validate = .ok () := by
    decide +kernel
  have hcycle : ({} : Builder).build detour { target := "dpu", collapsedType := "DPU" } =
      .error (.graph (.cycle "xp0")) :=
    (Outcome.map_eq_error (f := fun x => x.1.names)).1 (by decide +kernel)
  obtain ⟨ps, hps⟩ := Outcome.exists_of_isOk (x := Partition.tagged detour) (by decide +kernel)
  have hfree : ∀ id p, ps.get? id = some p → p.target = "dpu" → id ∉ detour.names := by
    intro id p hp _
    have hid := ((Partition.tagged_eq_ok hps).1 hp).1
    have htags : Partition.tags detour = ["xp0"] := by decide +kernel
    rw [htags, List.mem_singleton] at hid
    rw [hid]
    decide +kernel
  exact ⟨ps, hg, ho, hps, hfree, ⟨"xp0", hcycle⟩,
    (build_eq_cycle_iff hg ho hps hfree true).1.1 ⟨"xp0", hcycle⟩⟩

end Builder

end Dataflow
