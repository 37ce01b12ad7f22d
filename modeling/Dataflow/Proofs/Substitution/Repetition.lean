import Dataflow.Proofs.Substitution.WellFormed

/-!
# Repeated builds

A build for a device leaves nothing to do for the next build for it. A graph in order whose tags
make partitions, none of them for the device, is its own rewrite. A rewritten graph is such a
graph: the members of the collapsed partitions are gone, and the partitions of other devices keep
their members, whose relinked tops leave the partition where the tops they come from did.
-/

namespace Dataflow.Substitution.Context

open Dataflow.Partition

variable {c : Context} {new : List (String × Partition)} {net : List Node} {h : Graph}

/-! ## Rewrites with nothing to do -/

theorem step_of_unclaimed {n : Node} (hc : c.claims n = false)
    (hp : ∀ id, n.subgraph = some id → ∃ p, c.partitions.get? id = some p) (out : List Node) :
    c.step { net := out } n = .ok { net := out ++ [n] } := by
  unfold step
  cases hs : n.subgraph with
  | none => rfl
  | some id =>
      obtain ⟨p, hp⟩ := hp id hs
      have ht : p.target ≠ c.options.target := by
        intro ht
        rw [claims_iff.2 ⟨id, p, hs, hp, ht⟩] at hc
        cases hc
      dsimp only [Dict.get?_empty]
      rw [hp]
      dsimp only
      rw [if_pos ht]
      rfl

theorem substitute_of_unclaimed (hc : ∀ n ∈ c.graph.nodes, c.claims n = false)
    (hp : ∀ n ∈ c.graph.nodes, ∀ id, n.subgraph = some id →
      ∃ p, c.partitions.get? id = some p) : c.substitute = .ok { net := c.graph.nodes } := by
  have hrun : ∀ (rest out : List Node), (∀ n ∈ rest, n ∈ c.graph.nodes) →
      rest.foldlM c.step { net := out } = .ok { net := out ++ rest } := by
    intro rest
    induction rest with
    | nil =>
        intro out _
        rw [List.append_nil]
        rfl
    | cons n ns ih =>
        intro out hmem
        rw [List.forall_mem_cons] at hmem
        rw [List.foldlM_cons, step_of_unclaimed (hc n hmem.1) (hp n hmem.1), Outcome.ok_bind,
          ih _ hmem.2, List.append_assoc, List.singleton_append]
  exact hrun c.graph.nodes [] fun _ hn => hn

/-- A graph in order that has nothing to collapse is its own rewrite. -/
theorem rewrite_of_unclaimed (hout : c.compilerOutput = c.graph.compilerOutput)
    (ho : c.graph.isTopologicallyOrdered = true) (hc : ∀ n ∈ c.graph.nodes, c.claims n = false)
    (hp : ∀ n ∈ c.graph.nodes, ∀ id, n.subgraph = some id →
      ∃ p, c.partitions.get? id = some p) :
    c.rewrite c.graph.name = .ok (c.graph, ⟨[], .empty, []⟩) := by
  have hrelink : ({ net := c.graph.nodes } : Progress).relink = .ok c.graph.nodes := rfl
  have hsort := Node.sortTopologically_of_ordered c.graph.nodup ho
  unfold rewrite
  rw [substitute_of_unclaimed hc hp]
  simp only [Outcome.ok_bind, hrelink, hsort, hout, Graph.ofNodes_self]
  rfl

/-! ## What a contraction leaves -/

namespace Contraction

variable (hcon : Contraction c new net)
  (hperm : h.nodes.Perm (net.map (c.relinked (Dict.ofList new).entries)))

include hcon hperm

theorem exists_kept {y : Node} (hy : y ∈ h.nodes) {id : String} (hs : y.subgraph = some id) :
    ∃ x ∈ c.graph.nodes, c.claims x = false ∧ x.subgraph = some id ∧
      y = c.relinked (Dict.ofList new).entries x := by
  obtain ⟨x, hx, rfl⟩ := List.mem_map.1 (hperm.mem_iff.1 hy)
  rw [relinked_subgraph] at hs
  cases hcon.mem_net.1 hx with
  | kept hx' hc => exact ⟨x, hx', hc, hs, rfl⟩
  | collapsed e he hx' =>
      obtain ⟨attrs, rfl⟩ := hcon.collapsed_spec he hx'
      cases hs
  | accessor e he hx' =>
      obtain ⟨i, o, s, -, -, rfl⟩ := mem_accessors.1 hx'
      cases hs

theorem notClaimed_of_mem {y : Node} (hy : y ∈ h.nodes) {id : String}
    (hs : y.subgraph = some id) : y.target ≠ c.options.target := by
  obtain ⟨x, hx, hc, hs', rfl⟩ := hcon.exists_kept hperm hy hs
  rw [relinked_target]
  intro ht
  rw [(claims_iff_of_tagged hcon.tagged hx).2 ⟨by rw [hs']; rfl, ht⟩] at hc
  cases hc

theorem mem_memberNames_of_kept {x : Node} (hc : c.claims x = false) {id name : String}
    (hs : x.subgraph = some id) (hm : name ∈ Partition.memberNames c.graph id) :
    name ∈ Partition.memberNames h id := by
  obtain ⟨n, hn, hsn, rfl⟩ := mem_memberNames.1 hm
  have hcn : c.claims n = false := by
    rwa [claims, hsn, ← hs]
  have hnet := hperm.mem_iff.2 (List.mem_map_of_mem (hcon.mem_net.2 (.kept hn hcn)))
  refine mem_memberNames.2 ⟨_, hnet, ?_, relinked_name _ n⟩
  rw [relinked_subgraph, hsn]

/-- The relinked members that are outputs were outputs before. -/
theorem mem_outputs_of_relinked {x : Node} (hx : x ∈ c.graph.nodes) (hc : c.claims x = false)
    {id : String} (hs : x.subgraph = some id)
    (ho : c.relinked (Dict.ofList new).entries x ∈ outputs h id) :
    x ∈ outputs c.graph id := by
  refine mem_outputs.2 ⟨mem_members.2 ⟨hx, hs⟩, ?_⟩
  by_contra hin
  rw [not_or, not_exists] at hin
  obtain ⟨hne, hin⟩ := hin
  have hall : ∀ t ∈ x.tops, t ∈ Partition.memberNames c.graph id :=
    fun t ht => by_contra fun hout => hin t ⟨ht, hout⟩
  -- readers inside the partition are members of no collapsed one, so they are not redirected
  have hred : ∀ t ∈ x.tops, c.redirect (Dict.ofList new).entries x.name t = t := by
    intro t ht
    refine redirect_of_notMem fun e he _ hte => ?_
    obtain ⟨n, hn, hsn, rfl⟩ := mem_memberNames.1 (hall t ht)
    have hid : some id = some e.1 := hsn.symm.trans (subgraph_of_mem_memberNames hn hte)
    rw [hcon.replaced.claims_of_subgraph (hcon.mem_entries.1 he) (hs.trans hid)] at hc
    cases hc
  rcases (mem_outputs.1 ho).2 with htops | ⟨t', ht', hout⟩
  · obtain ⟨t, ht⟩ := List.exists_mem_of_ne_nil _ hne
    have ht' : t ∈ (c.relinked (Dict.ofList new).entries x).tops :=
      mem_tops_relinked.2 ⟨t, ht, hred t ht⟩
    rw [htops] at ht'
    cases ht'
  · obtain ⟨t, ht, rfl⟩ := mem_tops_relinked.1 ht'
    rw [hred t ht] at hout
    exact hout (hcon.mem_memberNames_of_kept hperm hc hs (hall t ht))

theorem exists_tagged : ∃ ps, Partition.tagged h = .ok ps := by
  refine exists_tagged_eq_ok fun id hid => ?_
  obtain ⟨y, hy, hs⟩ := mem_tags.1 hid
  obtain ⟨x, hx, -, hsx, rfl⟩ := hcon.exists_kept hperm hy hs
  obtain ⟨p, -, hsum⟩ := exists_get?_of_subgraph hcon.tagged hx hsx
  refine exists_summarize_eq_ok p.target (fun n hn => ?_) fun n hn => ?_
  · obtain ⟨hn, hsn⟩ := mem_members.1 hn
    obtain ⟨m, hm, -, hsm, rfl⟩ := hcon.exists_kept hperm hn hsn
    rw [relinked_target]
    exact hsum.target_eq m (mem_members.2 ⟨hm, hsm⟩)
  · obtain ⟨hmem, hsn⟩ := mem_members.1 (mem_outputs.1 hn).1
    obtain ⟨m, hm, hcm, hsm, rfl⟩ := hcon.exists_kept hperm hmem hsn
    rw [relinked_shapes]
    exact hsum.isTuple_outputs (hcon.mem_outputs_of_relinked hperm hm hcm hsm hn)

end Contraction

end Dataflow.Substitution.Context

namespace Dataflow.Builder

open Substitution

variable {g h : Graph} {o o' : BuildOptions} {r : BuildReport} {v : Bool}

/-- Building the result of a build for the same device again gives the same graph and reports
nothing. -/
theorem build_build (hb : ({ verify := v } : Builder).build g o = .ok (h, r))
    (ht : o'.target = o.target) (ho : o'.validate = .ok ()) :
    ({ verify := v } : Builder).build h o' = .ok (h, ⟨[], .empty, []⟩) := by
  obtain ⟨ps, new, net, hcon, hperm, hord, -⟩ := exists_contraction hb
  obtain ⟨-, -, -, hvalid⟩ := build_eq_ok.1 hb
  obtain ⟨ps', hps'⟩ := hcon.exists_tagged hperm
  have hc : ∀ n ∈ h.nodes, (contextOf h o' ps').claims n = false := by
    intro n hn
    by_contra hc
    obtain ⟨hs, htarget⟩ := (Context.claims_iff_of_tagged (c := contextOf h o' ps') hps' hn).1
      (by simpa using hc)
    obtain ⟨id, hid⟩ := Option.isSome_iff_exists.1 hs
    exact hcon.notClaimed_of_mem hperm hn hid (htarget.trans ht)
  have hp : ∀ n ∈ h.nodes, ∀ id, n.subgraph = some id → ∃ p, ps'.get? id = some p := by
    intro n hn id hid
    obtain ⟨p, hp, -⟩ := Partition.exists_get?_of_subgraph hps' hn hid
    exact ⟨p, hp⟩
  have hr := Context.rewrite_of_unclaimed (c := contextOf h o' ps') rfl hord hc hp
  exact build_eq_ok.2 ⟨ho, hvalid, ⟨ps', hps', hr⟩, hvalid⟩

theorem build_build_chain : ∃ h r,
    ({} : Builder).build (chain []) { target := "dpu", collapsedType := "DPU" } = .ok (h, r) ∧
      ({ target := "dpu", collapsedType := "Npu" } : BuildOptions).validate = .ok () ∧
        ({} : Builder).build h { target := "dpu", collapsedType := "Npu" } =
          .ok (h, ⟨[], .empty, []⟩) := by
  obtain ⟨⟨h, r⟩, hb⟩ := Outcome.exists_of_isOk
    (x := ({} : Builder).build (chain []) { target := "dpu", collapsedType := "DPU" })
    (by decide +kernel)
  have ho : ({ target := "dpu", collapsedType := "Npu" } : BuildOptions).validate = .ok () := by
    decide +kernel
  exact ⟨h, r, hb, ho, build_build hb rfl ho⟩

end Dataflow.Builder
