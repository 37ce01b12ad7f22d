import Dataflow.Proofs.Substitution.Relinking
import Dataflow.Substitution.Build

/-!
# Contracting tagged partitions

A rewrite that goes by the tags of the nodes. A node of the rewritten graph is one that was kept,
a collapsed node or an accessor; their names are distinct. If the edges of the graph are recorded
on both ends, each node still reads a node of the rewritten graph, and after relinking every edge
is recorded on both ends again.

The edges fall into four kinds: between kept nodes, between a kept and a collapsed node, from an
accessor to a kept node, and from an accessor of one partition to the collapsed node of another.
A kept node and an accessor are alike in that they stand for a node of the graph by its name and
list those of its readers that are not in their own collapsed partition. `Apart` is the condition
on two names under which an edge between them survives.
-/

namespace Dataflow.Substitution.Context

open Dataflow.Partition

variable {c : Context} {new : List (String × Partition)} {net : List Node}

/-- The pass over a whole graph whose partitions are those of its tags: `new` are the collapsed
ones, `net` the nodes before relinking. -/
structure Contraction (c : Context) (new : List (String × Partition)) (net : List Node) :
    Prop where
  tagged : Partition.tagged c.graph = .ok c.partitions
  replaced : Replaced c c.graph.nodes new net

inductive Origin (c : Context) (new : List (String × Partition)) (x : Node) : Prop where
  | kept (hx : x ∈ c.graph.nodes) (unclaimed : c.claims x = false)
  | collapsed (e : String × Partition) (he : e ∈ new) (hx : c.collapse e.2 = .ok x)
  | accessor (e : String × Partition) (he : e ∈ new) (hx : x ∈ c.accessors e.2)

/-- No collapsed partition has both names among its members. -/
def Apart (c : Context) (new : List (String × Partition)) (a b : String) : Prop :=
  ∀ e ∈ new, a ∈ Partition.memberNames c.graph e.1 → b ∉ Partition.memberNames c.graph e.1

theorem claims_iff_of_tagged (ht : Partition.tagged c.graph = .ok c.partitions) {n : Node}
    (hn : n ∈ c.graph.nodes) :
    c.claims n = true ↔ n.subgraph.isSome ∧ n.target = c.options.target := by
  rw [claims_iff]
  constructor
  · rintro ⟨id, p, hs, hp, htarget⟩
    have hm : n ∈ members c.graph id := mem_members.2 ⟨hn, hs⟩
    rw [hs, (summary_of_get? ht hp).target_eq n hm]
    exact ⟨rfl, htarget⟩
  · rintro ⟨hs, htarget⟩
    obtain ⟨id, hid⟩ := Option.isSome_iff_exists.1 hs
    obtain ⟨p, hp, hsum⟩ := exists_get?_of_subgraph ht hn hid
    exact ⟨id, p, hid, hp, by rw [← hsum.target_eq n (mem_members.2 ⟨hn, hid⟩), htarget]⟩

namespace Contraction

variable (h : Contraction c new net)

include h

/-! ## Collapsed partitions -/

theorem summary {e : String × Partition} (he : e ∈ new) : Summary c.graph e.1 e.2 :=
  summary_of_get? h.tagged (h.replaced.reported e he).1

theorem id_notMem {e : String × Partition} (he : e ∈ new) : e.1 ∉ c.graph.names := by
  obtain ⟨-, -, x, hx⟩ := h.replaced.reported e he
  rw [← (h.summary he).id_eq]
  exact (collapse_eq_ok hx).1

theorem mem_new_iff {e : String × Partition} :
    e ∈ new ↔ c.partitions.get? e.1 = some e.2 ∧ e.2.target = c.options.target := by
  refine ⟨fun he => ⟨(h.replaced.reported e he).1, (h.replaced.reported e he).2.1⟩, ?_⟩
  rintro ⟨hp, ht⟩
  obtain ⟨n, hn, hs⟩ := mem_tags.1 ((tagged_eq_ok h.tagged).1 hp).1
  obtain ⟨e', he', hs'⟩ := h.replaced.complete _ hn (claims_iff.2 ⟨e.1, e.2, hs, hp, ht⟩)
  have hid : e.1 = e'.1 := Option.some.inj (hs.symm.trans hs')
  have hp' := (h.replaced.reported e' he').1
  rw [← hid, hp] at hp'
  rwa [Prod.ext hid (Option.some.inj hp')]

theorem notMem_memberNames_of_kept {n : Node} (hn : n ∈ c.graph.nodes)
    (hc : c.claims n = false) {e : String × Partition} (he : e ∈ new) :
    n.name ∉ Partition.memberNames c.graph e.1 := by
  intro hm
  rw [h.replaced.claims_of_subgraph he (subgraph_of_mem_memberNames hn hm)] at hc
  cases hc

theorem eq_of_id_eq {e e' : String × Partition} (he : e ∈ new) (he' : e' ∈ new)
    (hid : e.1 = e'.1) : e = e' :=
  List.inj_on_of_nodup_map h.replaced.nodup he he' hid

theorem eq_of_mem_memberNames {e e' : String × Partition} (he : e ∈ new) (he' : e' ∈ new)
    {name : String} (hm : name ∈ Partition.memberNames c.graph e.1)
    (hm' : name ∈ Partition.memberNames c.graph e'.1) : e = e' := by
  obtain ⟨n, hn, hs, rfl⟩ := mem_memberNames.1 hm
  have hs' := subgraph_of_mem_memberNames hn hm'
  exact h.eq_of_id_eq he he' (Option.some.inj (hs.symm.trans hs'))

/-! ## Nodes -/

theorem mem_net {x : Node} : x ∈ net ↔ Origin c new x := by
  rw [h.replaced.perm.mem_iff, List.mem_append, List.mem_filter, List.mem_flatMap]
  constructor
  · rintro (⟨hx, hc⟩ | ⟨e, he, hx⟩)
    · exact .kept hx (by simpa using hc)
    · obtain ⟨y, hy, rfl | hx⟩ := mem_replacement.1 hx
      · exact .collapsed e he hy
      · exact .accessor e he hx
  · rintro (⟨hx, hc⟩ | ⟨e, he, hx⟩ | ⟨e, he, hx⟩)
    · exact Or.inl ⟨hx, by simp [hc]⟩
    · exact Or.inr ⟨e, he, mem_replacement.2 ⟨x, hx, Or.inl rfl⟩⟩
    · obtain ⟨-, -, y, hy⟩ := h.replaced.reported e he
      exact Or.inr ⟨e, he, mem_replacement.2 ⟨y, hy, Or.inr hx⟩⟩

theorem collapsed_spec {e : String × Partition} (he : e ∈ new) {x : Node}
    (hx : c.collapse e.2 = .ok x) :
    ∃ attrs, x = { c.collapsedNode e.2 attrs with name := e.1 } := by
  obtain ⟨-, -, -, attrs, -, -, rfl⟩ := collapse_eq_ok hx
  refine ⟨attrs, ?_⟩
  rw [← (h.summary he).id_eq]
  rfl

/-- An accessor stands for an output by its name and has its outside readers. -/
theorem accessor_spec {e : String × Partition} (he : e ∈ new) {x : Node}
    (hx : x ∈ c.accessors e.2) : ∃ m ∈ outputs c.graph e.1, x.name = m.name ∧
      x.bottoms = [e.1] ∧ x.tops = outsideReaders (Partition.memberNames c.graph e.1) m := by
  obtain ⟨i, o, s, ho, -, rfl⟩ := mem_accessors.1 hx
  obtain ⟨m, hm, rfl⟩ := (h.summary he).mem_outputNames.1 (List.mem_of_getElem? ho)
  refine ⟨m, hm, rfl, ?_, ?_⟩
  · rw [accessor, (h.summary he).id_eq]
  · rw [accessor, (h.summary he).readers_get? hm]
    rfl

theorem exists_accessor {e : String × Partition} (he : e ∈ new) {m : Node}
    (hm : m ∈ outputs c.graph e.1) : ∃ x ∈ c.accessors e.2, x.name = m.name ∧
      x.bottoms = [e.1] ∧ x.tops = outsideReaders (Partition.memberNames c.graph e.1) m := by
  have hs := h.summary he
  have hmem : m.name ∈ (c.accessors e.2).map Node.name := by
    rw [map_name_accessors hs.length_shapes]
    exact hs.mem_outputNames.2 ⟨m, hm, rfl⟩
  obtain ⟨x, hx, hn⟩ := List.mem_map.1 hmem
  obtain ⟨m', hm', hn', hb, ht⟩ := h.accessor_spec he hx
  have hmm : m' = m := by
    refine Node.eq_of_name_eq c.graph.nodup ?_ ?_ (hn'.symm.trans hn)
    · exact (mem_members.1 (mem_outputs.1 hm').1).1
    · exact (mem_members.1 (mem_outputs.1 hm).1).1
  exact ⟨x, hx, hn, hb, hmm ▸ ht⟩

/-! ## Names -/

theorem map_name_net_perm : (net.map Node.name).Perm
    ((c.graph.nodes.filter fun n => !c.claims n).map Node.name ++
      new.flatMap fun e => e.1 :: e.2.outputNames) := by
  have hp := h.replaced.perm.map Node.name
  rw [List.map_append, List.map_flatMap] at hp
  have he : new.flatMap (fun e => (c.replacement e.2).map Node.name) =
      new.flatMap fun e => e.1 :: e.2.outputNames := by
    refine List.flatMap_congr fun e he => ?_
    obtain ⟨-, -, x, hx⟩ := h.replaced.reported e he
    rw [map_name_replacement hx, (h.summary he).id_eq]
  rwa [he] at hp

/-- The names of a replacement differ from those of the graph, apart from the members'. -/
theorem disjoint_replacement {e e' : String × Partition} (he : e ∈ new) (he' : e' ∈ new)
    (hne : e.1 ≠ e'.1) : List.Disjoint (e.1 :: e.2.outputNames) (e'.1 :: e'.2.outputNames) := by
  have hid := h.id_notMem he
  have hid' := h.id_notMem he'
  have hsub := fun {o} => (h.summary he).outputNames_subset (o := o)
  have hsub' := fun {o} => (h.summary he').outputNames_subset (o := o)
  intro o ho ho'
  rcases List.mem_cons.1 ho with rfl | ho
  · rcases List.mem_cons.1 ho' with hoe | ho'
    · exact hne hoe
    · exact hid (memberNames_subset (hsub' ho'))
  · rcases List.mem_cons.1 ho' with rfl | ho'
    · exact hid' (memberNames_subset (hsub ho))
    · exact hne (congrArg Prod.fst (h.eq_of_mem_memberNames he he' (hsub ho) (hsub' ho')))

theorem nodup_net : (net.map Node.name).Nodup := by
  rw [h.map_name_net_perm.nodup_iff, List.nodup_append, List.nodup_flatMap]
  -- within a replacement, between two of them, and against the kept nodes
  refine ⟨(List.filter_sublist.map Node.name).nodup c.graph.nodup, ⟨fun e he => ?_, ?_⟩, ?_⟩
  · rw [List.nodup_cons]
    have hs := h.summary he
    exact ⟨fun ho => h.id_notMem he (memberNames_subset (hs.outputNames_subset ho)),
      hs.nodup_outputNames⟩
  · have hd := List.pairwise_map.1 h.replaced.nodup
    exact hd.imp_of_mem fun he he' hne => h.disjoint_replacement he he' hne
  · rintro a ha _ hb rfl
    obtain ⟨n, hn, rfl⟩ := List.mem_map.1 ha
    obtain ⟨hn, hc⟩ := List.mem_filter.1 hn
    obtain ⟨e, he, hb⟩ := List.mem_flatMap.1 hb
    rcases List.mem_cons.1 hb with hb | hb
    · exact h.id_notMem he (hb ▸ List.mem_map_of_mem hn)
    · exact h.notMem_memberNames_of_kept hn (by simpa using hc) he
        ((h.summary he).outputNames_subset hb)

end Contraction

end Dataflow.Substitution.Context

namespace Dataflow.Builder

open Substitution

variable {g h : Graph} {o : BuildOptions} {r : BuildReport} {v : Bool}

def contextOf (g : Graph) (o : BuildOptions) (ps : Dict Partition) : Context :=
  ⟨o, g.compilerOutput, g, ps⟩

theorem check_eq_ok : ({ verify := v } : Builder).check g = .ok () ↔
    (v = true → g.validate = .ok ()) := by
  cases v
  · exact iff_of_true rfl (fun hv => absurd hv Bool.false_ne_true)
  · rw [check, if_pos rfl, Outcome.mapError_eq_ok]
    exact ⟨fun h _ => h, fun h => h rfl⟩

theorem build_eq_ok_iff {b : Builder} : b.build g o = .ok (h, r) ↔
    o.validate = .ok () ∧ b.check g = .ok () ∧
      (∃ laidOut ps, b.layoutPass g o.target o.layout = .ok laidOut ∧
        b.partitioner laidOut = .ok ps ∧
          (⟨o, g.compilerOutput, laidOut, ps⟩ : Context).rewrite g.name = .ok (h, r)) ∧
        b.check h = .ok () := by
  unfold build
  simp only [Outcome.bind_eq_ok, Outcome.mapError_eq_ok, Prod.exists]
  constructor
  · rintro ⟨⟨⟩, ho, ⟨⟩, hg, laidOut, hl, ps, hps, h', r', hr, ⟨⟩, hh, hx⟩
    cases hx
    exact ⟨ho, hg, ⟨laidOut, ps, hl, hps, hr⟩, hh⟩
  · rintro ⟨ho, hg, ⟨laidOut, ps, hl, hps, hr⟩, hh⟩
    exact ⟨(), ho, (), hg, laidOut, hl, ps, hps, h, r, hr, (), hh, rfl⟩

theorem build_eq_ok : ({ verify := v } : Builder).build g o = .ok (h, r) ↔
    o.validate = .ok () ∧ (v = true → g.validate = .ok ()) ∧
      (∃ ps, Partition.tagged g = .ok ps ∧ (contextOf g o ps).rewrite g.name = .ok (h, r)) ∧
        (v = true → h.validate = .ok ()) := by
  rw [build_eq_ok_iff, check_eq_ok, check_eq_ok]
  constructor
  · rintro ⟨ho, hg, ⟨laidOut, ps, hl, hps, hr⟩, hh⟩
    cases hl
    exact ⟨ho, hg, ⟨ps, Outcome.mapError_eq_ok.1 hps, hr⟩, hh⟩
  · rintro ⟨ho, hg, ⟨ps, hps, hr⟩, hh⟩
    exact ⟨ho, hg, ⟨g, ps, rfl, Outcome.mapError_eq_ok.2 hps, hr⟩, hh⟩

theorem exists_contraction (hb : ({ verify := v } : Builder).build g o = .ok (h, r)) :
    ∃ ps new net, Context.Contraction (contextOf g o ps) new net ∧
      h.nodes.Perm (net.map ((contextOf g o ps).relinked (Dict.ofList new).entries)) ∧
        h.isTopologicallyOrdered = true ∧ h.name = g.name ∧
          h.compilerOutput = g.compilerOutput ∧ r = (contextOf g o ps).reportOf new := by
  obtain ⟨-, -, ⟨ps, hps, hr⟩, -⟩ := build_eq_ok.1 hb
  obtain ⟨new, net, hnew, hperm, hord, hname, hout, hrep⟩ := Context.rewrite_eq_ok hr
  exact ⟨ps, new, net, ⟨hps, hnew⟩, hperm, hord, hname, hout, hrep⟩

end Dataflow.Builder
