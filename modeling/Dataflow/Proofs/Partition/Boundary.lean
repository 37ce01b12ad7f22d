import Dataflow.Partition
import Dataflow.Proofs.Dict
import Dataflow.Proofs.Graph.Validity

/-!
# The boundary of a partition

What the description of a tagged partition says about the graph. `Summary` lists it field by
field; the lemmas behind it say in terms of nodes what crosses the boundary, and that the interior
is a graph of its own. The only reasons to refuse a tag are members that disagree on their target
and outputs that are tuples.
-/

namespace Dataflow

/-- Erasing repetitions leaves none. -/
theorem nodup_eraseDups (names : List String) : names.eraseDups.Nodup := by
  induction hl : names.length using Nat.strongRecOn generalizing names with
  | ind l ih =>
      cases names with
      | nil => exact .nil
      | cons x xs =>
          rw [List.eraseDups_cons, List.nodup_cons]
          refine ⟨by simp, ih _ ?_ _ rfl⟩
          have hle := List.length_filter_le (fun y => !y == x) xs
          rw [List.length_cons] at hl
          omega

namespace Partition

variable {g : Graph} {id : String} {p : Partition}

def memberNames (g : Graph) (id : String) : List String := (members g id).map Node.name

def outputs (g : Graph) (id : String) : List Node :=
  (members g id).filter (leaves (memberNames g id))

theorem mem_members {n : Node} : n ∈ members g id ↔ n ∈ g.nodes ∧ n.subgraph = some id := by
  simp [members]

/-- A node is a member of one partition. -/
theorem eq_of_mem_members {id' : String} {n : Node} (h : n ∈ members g id)
    (h' : n ∈ members g id') : id = id' :=
  Option.some.inj ((mem_members.1 h).2.symm.trans (mem_members.1 h').2)

theorem mem_memberNames {name : String} :
    name ∈ memberNames g id ↔ ∃ n ∈ g.nodes, n.subgraph = some id ∧ n.name = name := by
  simp [memberNames, mem_members, and_assoc]

theorem nodup_memberNames (g : Graph) (id : String) : (memberNames g id).Nodup :=
  (List.filter_sublist.map Node.name).nodup g.nodup

theorem memberNames_subset {name : String} (h : name ∈ memberNames g id) : name ∈ g.names := by
  obtain ⟨n, hn, -, rfl⟩ := mem_memberNames.1 h
  exact List.mem_map_of_mem hn

/-- A node of the graph whose name is a member's is that member. -/
theorem subgraph_of_mem_memberNames {n : Node} (hn : n ∈ g.nodes)
    (h : n.name ∈ memberNames g id) : n.subgraph = some id := by
  obtain ⟨m, hm, hs, he⟩ := mem_memberNames.1 h
  rw [← Node.eq_of_name_eq g.nodup hm hn he]
  exact hs

theorem mem_memberNames_of_subgraph {n : Node} (hn : n ∈ g.nodes) (h : n.subgraph = some id) :
    n.name ∈ memberNames g id :=
  mem_memberNames.2 ⟨n, hn, h, rfl⟩

theorem leaves_iff {inside : List String} {n : Node} :
    leaves inside n = true ↔ n.tops = [] ∨ ∃ t ∈ n.tops, t ∉ inside := by
  simp [leaves, outsideReaders, List.isEmpty_iff]

theorem mem_outputs {n : Node} :
    n ∈ outputs g id ↔
      n ∈ members g id ∧ (n.tops = [] ∨ ∃ t ∈ n.tops, t ∉ memberNames g id) := by
  rw [outputs, List.mem_filter, leaves_iff]

theorem mem_members_of_mem_outputs {n : Node} (h : n ∈ outputs g id) : n ∈ members g id :=
  (mem_outputs.1 h).1

theorem mem_outsideProducers {inside : List String} {nodes : List Node} {b : String} :
    b ∈ outsideProducers inside nodes ↔ ∃ n ∈ nodes, b ∈ n.bottoms ∧ b ∉ inside := by
  simp [outsideProducers, List.mem_eraseDups]

/-! ## Summaries -/

/-- What a partition says about the tag `id` of the graph `g`. -/
structure Summary (g : Graph) (id : String) (p : Partition) : Prop where
  id_eq : p.id = id
  target_eq : ∀ n ∈ members g id, n.target = p.target
  bottoms_eq : p.bottoms = outsideProducers (memberNames g id) (members g id)
  tops_eq : p.tops = ((outputs g id).flatMap (outsideReaders (memberNames g id))).eraseDups
  inputNames_eq : p.inputNames = p.bottoms
  outputNames_eq : p.outputNames = (outputs g id).map Node.name
  readers_eq : p.readers =
    .ofList ((outputs g id).map fun n => (n.name, outsideReaders (memberNames g id) n))
  shapes_eq : (outputs g id).map Node.shapes = p.shapes.map Shapes.tensor
  interior_eq : ∃ producers, List.Forall₂ (fun b x => g.node b = .ok x) p.bottoms producers ∧
    p.interior = producers.map (standIn id p.target (memberNames g id)) ++
      (members g id).map (interiorNode (memberNames g id))

/-- The declared shapes of outputs, each of which has to be a single tensor. -/
theorem shapes_of_mapM {outs : List Node} {shapes : List TensorShape}
    (h : outs.mapM (fun n =>
      match n.shapes.asTensor? with
      | some s => Except.ok s
      | none => Except.error (TagError.tupleOutput id n.name)) = .ok shapes) :
    outs.map Node.shapes = shapes.map Shapes.tensor := by
  rw [Outcome.mapM_eq_ok] at h
  induction h with
  | nil => rfl
  | @cons n s ns ss hn _ ih =>
      have hs : n.shapes = .tensor s := by
        cases hc : n.shapes with
        | tensor s' => rw [hc] at hn; cases hn; rfl
        | tuple items => rw [hc] at hn; cases hn
      rw [List.map_cons, List.map_cons, hs, ih]

/-- The members of a partition agree with the first of them where none disagrees. -/
theorem target_of_find?_eq_none {target : String} {nodes : List Node}
    (h : nodes.find? (fun n => decide (n.target ≠ target)) = none) :
    ∀ n ∈ nodes, n.target = target := by
  intro n hn
  simpa using List.find?_eq_none.1 h n hn

theorem Summary.of_summarize (h : summarize g id = .ok p) : Summary g id p := by
  unfold summarize at h
  dsimp only at h
  split at h
  · cases h
  · next ht =>
    obtain ⟨shapes, hs, h⟩ := Outcome.bind_eq_ok.1 h
    obtain ⟨standIns, hi, h⟩ := Outcome.bind_eq_ok.1 h
    cases h
    have ht' := target_of_find?_eq_none (Option.eq_none_iff_forall_not_mem.2 ht)
    refine ⟨rfl, ht', rfl, rfl, rfl, rfl, rfl, shapes_of_mapM hs, ?_⟩
    rw [Outcome.mapM_eq_ok] at hi
    have hp : ∀ bs xs, List.Forall₂ (fun b x => (((g.node b).map (standIn id
        (((members g id).head?.map Node.target).getD "") (memberNames g id))).mapError
          TagError.graph) = .ok x) bs xs →
        ∃ ps, List.Forall₂ (fun b x => g.node b = .ok x) bs ps ∧ xs = ps.map (standIn id
          (((members g id).head?.map Node.target).getD "") (memberNames g id)) := by
      intro bs xs hf
      induction hf with
      | nil => exact ⟨[], .nil, rfl⟩
      | cons hx _ ih =>
          obtain ⟨ps, hps, rfl⟩ := ih
          obtain ⟨q, hq, rfl⟩ := Outcome.map_eq_ok.1 (Outcome.mapError_eq_ok.1 hx)
          exact ⟨q :: ps, .cons hq hps, rfl⟩
    obtain ⟨ps, hps, rfl⟩ := hp _ _ hi
    exact ⟨ps, hps, rfl⟩

/-- A tag is refused where members disagree on their target or an output is a tuple. -/
theorem summarize_eq_error {e : TagError} (h : summarize g id = .error e) :
    (∃ n ∈ members g id, ∃ m ∈ members g id, n.target ≠ m.target ∧
        e = .mixedTargets id m.target n.target n.name) ∨
      ∃ n ∈ outputs g id, n.shapes.isTuple = true ∧ e = .tupleOutput id n.name := by
  unfold summarize at h
  dsimp only at h
  split at h
  · next n hn =>
    cases h
    have hmem := List.mem_of_find?_eq_some hn
    have hne := List.find?_some hn
    rw [decide_eq_true_eq] at hne
    cases hm : members g id with
    | nil =>
        rw [hm] at hmem
        cases hmem
    | cons m ms =>
        rw [hm] at hmem hne
        exact Or.inl ⟨n, hmem, m, List.mem_cons_self, hne, rfl⟩
  · rcases Outcome.bind_eq_error.1 h with h | ⟨_, -, h⟩
    · obtain ⟨n, hn, h⟩ := Outcome.exists_of_mapM_eq_error h
      refine Or.inr ⟨n, hn, ?_⟩
      cases hs : n.shapes with
      | tensor s =>
          rw [hs] at h
          cases h
      | tuple items =>
          rw [hs] at h
          cases h
          exact ⟨rfl, rfl⟩
    · rcases Outcome.bind_eq_error.1 h with h | ⟨_, -, h⟩
      · obtain ⟨b, hb, h⟩ := Outcome.exists_of_mapM_eq_error h
        obtain ⟨e, h, -⟩ := Outcome.mapError_eq_error.1 h
        obtain ⟨n, hn, hb, -⟩ := mem_outsideProducers.1 hb
        exact absurd (g.closed n (mem_members.1 hn).1 b hb)
          (Graph.notMem_names_of_node_eq_error (Outcome.map_eq_error.1 h))
      · cases h

/-- A tag is refused for what its members are, never for a node that is not there. -/
theorem ne_graph_of_summarize {e : TagError} (h : summarize g id = .error e) :
    ∀ x, e ≠ .graph x := by
  rintro x rfl
  rcases summarize_eq_error h with ⟨n, -, m, -, -, he⟩ | ⟨n, -, -, he⟩
  · cases he
  · cases he

/-- Members that agree on their target and whose outputs are tensors make a partition. -/
theorem exists_summarize_eq_ok (target : String)
    (ht : ∀ n ∈ members g id, n.target = target)
    (hs : ∀ n ∈ outputs g id, n.shapes.isTuple = false) : ∃ p, summarize g id = .ok p := by
  cases h : summarize g id with
  | ok p => exact ⟨p, rfl⟩
  | error e =>
      rcases summarize_eq_error h with ⟨n, hn, m, hm, hne, -⟩ | ⟨n, hn, htuple, -⟩
      · exact absurd ((ht n hn).trans (ht m hm).symm) hne
      · rw [hs n hn] at htuple
        cases htuple

/-- Nodes that were looked up one by one have the names they were looked up by. -/
theorem names_of_nodes {names : List String} {nodes : List Node}
    (h : List.Forall₂ (fun b x => g.node b = .ok x) names nodes) :
    nodes.map Node.name = names := by
  induction h with
  | nil => rfl
  | cons hx _ ih => rw [List.map_cons, ih, (Graph.node_eq_ok.1 hx).2]

namespace Summary

variable (h : Summary g id p)

include h

theorem mem_bottoms {b : String} :
    b ∈ p.bottoms ↔ ∃ n ∈ members g id, b ∈ n.bottoms ∧ b ∉ memberNames g id := by
  rw [h.bottoms_eq, mem_outsideProducers]

theorem bottoms_subset {b : String} (hb : b ∈ p.bottoms) : b ∈ g.names := by
  obtain ⟨n, hn, hb, -⟩ := h.mem_bottoms.1 hb
  exact g.closed n (mem_members.1 hn).1 b hb

theorem mem_outputNames {o : String} : o ∈ p.outputNames ↔ ∃ n ∈ outputs g id, n.name = o := by
  rw [h.outputNames_eq, List.mem_map]

theorem outputNames_subset {o : String} (ho : o ∈ p.outputNames) : o ∈ memberNames g id := by
  obtain ⟨n, hn, rfl⟩ := h.mem_outputNames.1 ho
  exact List.mem_map_of_mem (mem_outputs.1 hn).1

/-- The outputs declare a single tensor each. -/
theorem isTuple_outputs {n : Node} (hn : n ∈ outputs g id) : n.shapes.isTuple = false := by
  have hm : n.shapes ∈ p.shapes.map Shapes.tensor := h.shapes_eq ▸ List.mem_map_of_mem hn
  obtain ⟨s, -, hs⟩ := List.mem_map.1 hm
  rw [← hs]
  rfl

theorem nodup_outputNames : p.outputNames.Nodup := by
  rw [h.outputNames_eq]
  exact (List.filter_sublist.map Node.name).nodup (nodup_memberNames g id)

theorem length_shapes : p.shapes.length = p.outputNames.length := by
  have hl := congrArg List.length h.shapes_eq
  rw [List.length_map, List.length_map] at hl
  rw [h.outputNames_eq, List.length_map, hl]

/-- The readers of an output that lie outside are listed under its name. -/
theorem readers_get? {n : Node} (hn : n ∈ outputs g id) :
    p.readers.get? n.name = some (outsideReaders (memberNames g id) n) := by
  rw [h.readers_eq, Dict.get?_ofList]
  · exact List.mem_map_of_mem hn
  · have hd := h.nodup_outputNames
    rw [h.outputNames_eq] at hd
    rw [List.map_map]
    exact hd

/-- The interior holds the outside producers and the members. -/
theorem map_name_interior : p.interior.map Node.name = p.bottoms ++ memberNames g id := by
  obtain ⟨producers, hp, hi⟩ := h.interior_eq
  have hn : producers.map Node.name = p.bottoms := names_of_nodes hp
  rw [hi, List.map_append, List.map_map, List.map_map, ← hn]
  rfl

theorem nodup_bottoms : p.bottoms.Nodup := by
  rw [h.bottoms_eq]
  exact nodup_eraseDups _

theorem nodup_interior : (p.interior.map Node.name).Nodup := by
  rw [h.map_name_interior, List.nodup_append]
  refine ⟨h.nodup_bottoms, nodup_memberNames g id, ?_⟩
  rintro b hb _ hm rfl
  obtain ⟨-, -, -, hout⟩ := h.mem_bottoms.1 hb
  exact hout hm

theorem closed_interior :
    ∀ n ∈ p.interior, ∀ b ∈ n.bottoms, b ∈ p.interior.map Node.name := by
  obtain ⟨producers, -, hi⟩ := h.interior_eq
  intro n hn b hb
  rw [h.map_name_interior, List.mem_append]
  rw [hi, List.mem_append] at hn
  rcases hn with hn | hn
  · obtain ⟨x, -, rfl⟩ := List.mem_map.1 hn
    cases hb
  · obtain ⟨m, hm, rfl⟩ := List.mem_map.1 hn
    by_cases hin : b ∈ memberNames g id
    · exact Or.inr hin
    · exact Or.inl (h.mem_bottoms.2 ⟨m, hm, hb, hin⟩)

/-- The interior is a graph. -/
theorem exists_subgraph :
    ∃ interior, p.subgraph = .ok interior ∧ interior.names = p.bottoms ++ memberNames g id := by
  obtain ⟨interior, hi⟩ := Graph.exists_ofNodes_eq_ok p.id none h.nodup_interior h.closed_interior
  refine ⟨interior, hi, ?_⟩
  rw [Graph.names, (Graph.ofNodes_eq_ok hi).2.1, h.map_name_interior]

end Summary

/-! ## All tags of a graph -/

theorem mem_tags : id ∈ tags g ↔ ∃ n ∈ g.nodes, n.subgraph = some id := by
  rw [tags, Dict.mem_keys_ofList]
  simp

/-- Summaries that were made tag by tag are found under their tags. -/
theorem lookup_of_summaries {ids : List String} {es : List (String × Partition)}
    (h : List.Forall₂ (fun id e => ((summarize g id).map fun p => (id, p)) = .ok e) ids es) :
    es.lookup id = some p ↔ id ∈ ids ∧ summarize g id = .ok p := by
  induction h with
  | nil => simp
  | @cons id' e ids es he _ ih =>
      obtain ⟨q, hq, rfl⟩ := Outcome.map_eq_ok.1 he
      by_cases hid : id = id'
      · subst hid
        simp [hq]
      · rw [List.lookup_cons, beq_false_of_ne hid, ih, List.mem_cons]
        simp [hid]

theorem tagged_eq_ok {ps : Dict Partition} (h : tagged g = .ok ps) :
    ps.get? id = some p ↔ id ∈ tags g ∧ summarize g id = .ok p := by
  obtain ⟨es, hes, h⟩ := Outcome.bind_eq_ok.1 h
  cases h
  exact lookup_of_summaries (Outcome.mapM_eq_ok.1 hes)

/-- Every tag of a node is reported. -/
theorem exists_get?_of_subgraph {ps : Dict Partition} (h : tagged g = .ok ps) {n : Node}
    (hn : n ∈ g.nodes) (hs : n.subgraph = some id) :
    ∃ p, ps.get? id = some p ∧ Summary g id p := by
  have hid : id ∈ tags g := mem_tags.2 ⟨n, hn, hs⟩
  obtain ⟨es, hes, -⟩ := Outcome.bind_eq_ok.1 h
  rw [Outcome.mapM_eq_ok] at hes
  obtain ⟨e, -, he⟩ := Outcome.exists_right_of_mem hes hid
  obtain ⟨p, hp, -⟩ := Outcome.map_eq_ok.1 he
  exact ⟨p, (tagged_eq_ok h).2 ⟨hid, hp⟩, .of_summarize hp⟩

theorem summary_of_get? {ps : Dict Partition} (h : tagged g = .ok ps)
    (hp : ps.get? id = some p) : Summary g id p :=
  .of_summarize ((tagged_eq_ok h).1 hp).2

theorem exists_tagged_eq_ok (h : ∀ id ∈ tags g, ∃ p, summarize g id = .ok p) :
    ∃ ps, tagged g = .ok ps := by
  cases ht : tagged g with
  | ok ps => exact ⟨ps, rfl⟩
  | error e =>
      rcases Outcome.bind_eq_error.1 ht with ht | ⟨_, -, ht⟩
      · obtain ⟨id, hid, ht⟩ := Outcome.exists_of_mapM_eq_error ht
        obtain ⟨p, hp⟩ := h id hid
        rw [Outcome.map_eq_error, hp] at ht
        cases ht
      · cases ht

/-- The tags of a graph are refused for what its nodes are, never for one that is not there. -/
theorem ne_graph_of_tagged {e : TagError} (h : tagged g = .error e) : ∀ x, e ≠ .graph x := by
  rcases Outcome.bind_eq_error.1 h with h | ⟨_, -, h⟩
  · obtain ⟨id, -, h⟩ := Outcome.exists_of_mapM_eq_error h
    exact ne_graph_of_summarize (Outcome.map_eq_error.1 h)
  · cases h

end Partition

end Dataflow
