import Dataflow.Proofs.Substitution.WellFormed
import Mathlib.Algebra.GroupWithZero.Nat

/-!
# Conservation of nodes

What a build keeps, whatever its layout pass and its partitioner are. Nothing is assumed about the
partitions, which may speak of members that are not there, list wrong producers and readers, or
have other names than their tags.

The argument is about the pass over the nodes only. Relinking changes tops, and sorting changes the
order, so neither of them adds a node or loses one. The pass keeps the nodes that are not claimed.
The claimed ones are the members of the collapsed partitions, and each is a member of one of them.
-/

namespace Dataflow

open Dataflow.Partition

theorem Node.filter_name_eq {nodes : List Node} (hd : (nodes.map Node.name).Nodup) {n : Node}
    (hn : n ∈ nodes) : nodes.filter (fun m => m.name = n.name) = [n] := by
  induction nodes with
  | nil => cases hn
  | cons m ms ih =>
      rw [List.map_cons, List.nodup_cons] at hd
      rcases List.mem_cons.1 hn with rfl | hn
      · rw [List.filter_cons_of_pos (by simp), List.filter_eq_nil_iff.2]
        intro k hk he
        rw [decide_eq_true_eq] at he
        exact hd.1 (he ▸ List.mem_map_of_mem hk)
      · rw [List.filter_cons_of_neg, ih hd.2 hn]
        intro he
        rw [decide_eq_true_eq] at he
        exact hd.1 (he ▸ List.mem_map_of_mem hn)

/-- What a build for `target` keeps of the graph `g` with the partitions `ps`, when it returns `h`
and the report `r`. -/
structure Builder.Conserves (target : String) (g : Graph) (ps : Dict Partition) (h : Graph)
    (r : BuildReport) : Prop where
  nodup_collapsed : r.collapsed.Nodup
  ordered_collapsed :
    r.collapsed.Pairwise fun a b => firstMember g.nodes a < firstMember g.nodes b
  mem_collapsed : ∀ id, id ∈ r.collapsed ↔
    (∃ n ∈ g.nodes, n.subgraph = some id) ∧ ∃ p, ps.get? id = some p ∧ p.target = target
  ordered_consumed : r.consumed.Ordered
  consumed : ∀ id k, r.consumed.get? id = some k ↔
    id ∈ r.collapsed ∧ k = (members g id).length
  length_nodes : h.nodes.length + (r.consumed.entries.map Prod.snd).sum =
    g.nodes.length + r.collapsed.length + r.accessors.length
  kept : ∀ n ∈ g.nodes, (∀ id ∈ r.collapsed, n.subgraph ≠ some id) →
    ∃ tops, h.nodes.filter (fun m => m.name = n.name) = [{ n with tops }]

namespace Substitution.Context

variable {c : Context} {new : List (String × Partition)} {net : List Node}

namespace Replaced

variable (hnew : Replaced c c.graph.nodes new net)

include hnew

/-! ## Collapsed partitions -/

/-- The collapsed partitions are those that have members and are reported for the target. -/
theorem mem_collapsed_iff (id : String) : id ∈ new.map Prod.fst ↔
    (∃ n ∈ c.graph.nodes, n.subgraph = some id) ∧
      ∃ p, c.partitions.get? id = some p ∧ p.target = c.options.target := by
  constructor
  · intro hid
    refine ⟨firstMember_lt_length.1 (hnew.met.carried id hid), ?_⟩
    obtain ⟨e, he, rfl⟩ := List.mem_map.1 hid
    obtain ⟨hp, ht, -⟩ := hnew.reported e he
    exact ⟨e.2, hp, ht⟩
  · rintro ⟨⟨n, hn, hs⟩, p, hp, ht⟩
    obtain ⟨e, he, hs'⟩ := hnew.complete _ hn (claims_iff.2 ⟨id, p, hs, hp, ht⟩)
    rw [Option.some.inj (hs.symm.trans hs')]
    exact List.mem_map_of_mem he

/-! ## Counting -/

/-- The nodes that the pass does not keep are the members of the collapsed partitions. -/
theorem claimed_perm : (c.graph.nodes.filter fun n => c.claims n).Perm
    (new.flatMap fun e => members c.graph e.1) := by
  have hnodup : c.graph.nodes.Nodup := .of_map Node.name c.graph.nodup
  have hd := List.pairwise_map.1 hnew.nodup
  have hmembers : (new.flatMap fun e => members c.graph e.1).Nodup := by
    rw [List.nodup_flatMap]
    exact ⟨fun e _ => hnodup.filter _,
      hd.imp fun hne n hn hn' => hne (eq_of_mem_members hn hn')⟩
  refine (List.perm_ext_iff_of_nodup (hnodup.filter _) hmembers).2 fun n => ?_
  rw [List.mem_filter, List.mem_flatMap]
  constructor
  · rintro ⟨hn, hc⟩
    obtain ⟨e, he, hs⟩ := hnew.complete _ hn hc
    exact ⟨e, he, mem_members.2 ⟨hn, hs⟩⟩
  · rintro ⟨e, he, hn⟩
    obtain ⟨hn, hs⟩ := mem_members.1 hn
    exact ⟨hn, hnew.claims_of_subgraph he hs⟩

theorem length_replacements : (new.flatMap fun e => c.replacement e.2).length =
    new.length + (c.accessorNames new).length := by
  have hr := hnew.reported
  clear hnew
  induction new with
  | nil => rfl
  | cons e es ih =>
      obtain ⟨-, -, x, hx⟩ := hr e List.mem_cons_self
      have ih := ih fun e' he' => hr e' (List.mem_cons_of_mem _ he')
      unfold accessorNames at ih ⊢
      rw [List.flatMap_cons, List.flatMap_cons, List.length_append, List.length_append, ih,
        replacement, hx, List.length_cons, List.length_cons, List.length_map]
      omega

theorem length_eq : net.length + (new.map fun e => (members c.graph e.1).length).sum =
    c.graph.nodes.length + new.length + (c.accessorNames new).length := by
  have hsplit : c.graph.nodes.length = (c.graph.nodes.filter fun n => c.claims n).length +
      (c.graph.nodes.filter fun n => !c.claims n).length :=
    List.length_eq_length_filter_add fun n => c.claims n
  have hclaimed := hnew.claimed_perm.length_eq
  rw [List.length_flatMap] at hclaimed
  have hnet := hnew.perm.length_eq
  rw [List.length_append, hnew.length_replacements] at hnet
  omega

end Replaced

/-! ## The whole rewrite -/

theorem nodup_keys_consumed (hd : (new.map Prod.fst).Nodup) :
    ((new.map fun e => (e.1, (members c.graph e.1).length)).map Prod.fst).Nodup := by
  rwa [List.map_map]

theorem get?_consumed (hd : (new.map Prod.fst).Nodup) (id : String) (k : Nat) :
    (c.reportOf new).consumed.get? id = some k ↔
      id ∈ new.map Prod.fst ∧ k = (members c.graph id).length := by
  unfold reportOf
  rw [Dict.get?_ofList (nodup_keys_consumed hd), List.mem_map, List.mem_map]
  constructor
  · rintro ⟨e, he, hk⟩
    cases hk
    exact ⟨⟨e, he, rfl⟩, rfl⟩
  · rintro ⟨⟨e, he, rfl⟩, rfl⟩
    exact ⟨e, he, rfl⟩

theorem sum_consumed (hd : (new.map Prod.fst).Nodup) :
    ((c.reportOf new).consumed.entries.map Prod.snd).sum =
      (new.map fun e => (members c.graph e.1).length).sum := by
  have hperm := (Dict.ofList_perm (nodup_keys_consumed (c := c) hd)).map Prod.snd
  unfold reportOf
  rw [hperm.sum_nat, List.map_map]
  rfl

theorem conserves_of_rewrite {name : String} {h : Graph} {r : BuildReport}
    (hr : c.rewrite name = .ok (h, r)) :
    Builder.Conserves c.options.target c.graph c.partitions h r := by
  obtain ⟨new, net, hnew, hperm, -, -, -, rfl⟩ := rewrite_eq_ok hr
  constructor
  case nodup_collapsed => exact hnew.nodup
  case ordered_collapsed => exact hnew.met.pairwise
  case mem_collapsed => exact hnew.mem_collapsed_iff
  case ordered_consumed => exact Dict.ordered_ofList _
  case consumed => exact get?_consumed hnew.nodup
  case length_nodes =>
    rw [sum_consumed hnew.nodup, hperm.length_eq, List.length_map, hnew.length_eq]
    unfold reportOf
    rw [List.length_map]
  case kept =>
    intro n hn htag
    have hc : c.claims n = false := by
      rw [← Bool.not_eq_true]
      intro hc
      obtain ⟨e, he, hs⟩ := hnew.complete _ hn hc
      exact htag e.1 (List.mem_map_of_mem he) hs
    have hnet : n ∈ net := by
      rw [hnew.perm.mem_iff, List.mem_append, List.mem_filter, hc]
      exact Or.inl ⟨hn, rfl⟩
    have hmem := hperm.mem_iff.2 (List.mem_map_of_mem hnet)
    have hfilter := Node.filter_name_eq h.nodup hmem
    rw [relinked_name, relinked_eq] at hfilter
    exact ⟨_, hfilter⟩

end Substitution.Context

namespace Builder

variable {b : Builder} {g h : Graph} {o : BuildOptions} {r : BuildReport}

/-- Every build conserves the nodes of the graph that its layout pass returns, for any layout pass
and any partitioner. -/
theorem exists_conserves (hb : b.build g o = .ok (h, r)) :
    ∃ laidOut ps, b.layoutPass g o.target o.layout = .ok laidOut ∧
      b.partitioner laidOut = .ok ps ∧ Conserves o.target laidOut ps h r := by
  obtain ⟨-, -, ⟨laidOut, ps, hl, hps, hr⟩, -⟩ := build_eq_ok_iff.1 hb
  exact ⟨laidOut, ps, hl, hps, Substitution.Context.conserves_of_rewrite hr⟩

/-- A builder that turns the nodes around. What it says of the partition `xp0` fits no graph: the
partition has another name, nothing goes in, and what comes out is read by nobody. -/
def careless : Builder where
  layoutPass g _ _ :=
    (Graph.ofNodes g.name g.nodes.reverse g.compilerOutput).mapError GraphError.message
  partitioner _ := .ok (.ofList [("xp0", {
    id := "block"
    target := "dpu"
    bottoms := []
    tops := ["nobody"]
    inputNames := []
    outputNames := ["s"]
    interior := [{ name := "s", types := ["Input"], shapes := .tensor ⟨[1]⟩ }]
    readers := .empty
    shapes := [⟨[1]⟩] })])
  verify := false

theorem exists_conserves_careless : ∃ h r,
    careless.build (chain []) { target := "dpu", collapsedType := "DPU" } = .ok (h, r) ∧
      ∃ laidOut ps, careless.layoutPass (chain []) "dpu" .standard = .ok laidOut ∧
        careless.partitioner laidOut = .ok ps ∧ Conserves "dpu" laidOut ps h r := by
  obtain ⟨⟨h, r⟩, hb⟩ := Outcome.exists_of_isOk
    (x := careless.build (chain []) { target := "dpu", collapsedType := "DPU" })
    (by decide +kernel)
  exact ⟨h, r, hb, exists_conserves hb⟩

end Builder

end Dataflow
