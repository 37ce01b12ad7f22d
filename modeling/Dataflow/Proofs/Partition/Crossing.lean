import Dataflow.Proofs.Partition.Boundary

/-!
# What crosses the boundary

The description of a tagged partition, in terms of who reads whom. The producers of a partition are
found in the bottoms of its members, its readers in their tops. In a graph whose edges are recorded
on both ends these are two views of the same edges, those that cross the boundary, and `Describes`
says of every field which of them it lists and in which order. A graph has such descriptions exactly
if the members of each partition agree on their target and the values that leave a partition are
single tensors.
-/

namespace Dataflow

/-- Erasing the repetitions from some of the elements of a list leaves these in the order in which
they first come up in it. -/
theorem pairwise_eraseDups_filter (q : String → Bool) (xs : List String) :
    (xs.filter q).eraseDups.Pairwise fun a b => xs.idxOf a < xs.idxOf b := by
  induction xs generalizing q with
  | nil => exact .nil
  | cons x xs ih =>
      have hlater : ∀ r : String → Bool, (∀ a, r a = true → a ≠ x) →
          (xs.filter r).eraseDups.Pairwise fun a b => (x :: xs).idxOf a < (x :: xs).idxOf b := by
        intro r hr
        refine (ih r).imp_of_mem fun {a b} ha hb hlt => ?_
        rw [List.mem_eraseDups] at ha hb
        rw [List.idxOf_cons_ne _ (hr a (List.mem_filter.1 ha).2).symm,
          List.idxOf_cons_ne _ (hr b (List.mem_filter.1 hb).2).symm]
        exact Nat.succ_lt_succ hlt
      by_cases hx : q x = true
      · rw [List.filter_cons_of_pos hx, List.eraseDups_cons, List.filter_filter,
          List.pairwise_cons]
        refine ⟨fun b hb => ?_, hlater _ fun a ha => by simpa using (Bool.and_eq_true_iff.1 ha).1⟩
        rw [List.mem_eraseDups, List.mem_filter, Bool.and_eq_true] at hb
        have hne : b ≠ x := by simpa using hb.2.1
        rw [List.idxOf_cons_self, List.idxOf_cons_ne _ hne.symm]
        exact Nat.succ_pos _
      · rw [List.filter_cons_of_neg hx]
        refine hlater q fun a ha he => hx ?_
        rwa [← he]

namespace Partition

variable {g : Graph} {id : String} {p : Partition} {n : Node} {t : String}

structure ReadsOutside (g : Graph) (id : String) (n c : Node) : Prop where
  mem : c ∈ g.nodes
  outside : c.subgraph ≠ some id
  reads : n.name ∈ c.bottoms

/-- The value of the member `n` is read outside of the partition, or nowhere. -/
def Delivered (g : Graph) (id : String) (n : Node) : Prop :=
  (∃ c, ReadsOutside g id n c) ∨ ∀ c ∈ g.nodes, n.name ∉ c.bottoms

/-- The members of each partition agree on their target, and those that are delivered declare a
single tensor. -/
def Describable (g : Graph) : Prop :=
  ∀ id, (∀ m ∈ members g id, ∀ n ∈ members g id, m.target = n.target) ∧
    ∀ n ∈ members g id, Delivered g id n → ∃ s, n.shapes = .tensor s

/-- The fields of `p` but for its interior tell what crosses the boundary of the partition `id`. -/
structure Describes (p : Partition) (g : Graph) (id : String) : Prop where
  id_eq : p.id = id
  target_eq : ∀ n ∈ members g id, n.target = p.target
  inputNames_eq : p.inputNames = p.bottoms
  nodup_bottoms : p.bottoms.Nodup
  mem_bottoms : ∀ b, b ∈ p.bottoms ↔ ∃ x ∈ g.nodes, x.name = b ∧ x.subgraph ≠ some id ∧
    ∃ n ∈ members g id, b ∈ n.bottoms
  /-- The producers are listed in the order in which members first read them. -/
  bottoms_in_order : p.bottoms.Pairwise fun a b =>
    ((members g id).flatMap Node.bottoms).idxOf a < ((members g id).flatMap Node.bottoms).idxOf b
  outputNames_sublist : p.outputNames.Sublist g.names
  mem_outputNames : ∀ o, o ∈ p.outputNames ↔
    ∃ n ∈ members g id, n.name = o ∧ Delivered g id n
  shapes_aligned : List.Forall₂ (fun o s => ∃ n ∈ members g id, n.name = o ∧ n.shapes = .tensor s)
    p.outputNames p.shapes
  ordered_readers : p.readers.Ordered
  mem_keys_readers : ∀ o, o ∈ p.readers.keys ↔ o ∈ p.outputNames
  mem_readers : ∀ n ∈ members g id, ∀ ts, p.readers.get? n.name = some ts →
    ∀ t, t ∈ ts ↔ ∃ c, ReadsOutside g id n c ∧ c.name = t
  nodup_tops : p.tops.Nodup
  mem_tops : ∀ t, t ∈ p.tops ↔
    ∃ n ∈ members g id, ∃ c, ReadsOutside g id n c ∧ c.name = t

/-! ## Producers -/

/-- The producers are the nodes outside that a member reads. -/
theorem Summary.mem_bottoms_iff_exists (h : Summary g id p) {b : String} :
    b ∈ p.bottoms ↔ ∃ x ∈ g.nodes, x.name = b ∧ x.subgraph ≠ some id ∧
      ∃ n ∈ members g id, b ∈ n.bottoms := by
  rw [h.mem_bottoms]
  constructor
  · rintro ⟨n, hn, hb, hout⟩
    obtain ⟨x, hx, rfl⟩ := List.mem_map.1 (g.closed n (mem_members.1 hn).1 b hb)
    exact ⟨x, hx, rfl, fun hs => hout (mem_memberNames_of_subgraph hx hs), n, hn, hb⟩
  · rintro ⟨x, hx, rfl, hs, n, hn, hb⟩
    exact ⟨n, hn, hb, fun hin => hs (subgraph_of_mem_memberNames hx hin)⟩

theorem Summary.bottoms_in_order (h : Summary g id p) : p.bottoms.Pairwise fun a b =>
    ((members g id).flatMap Node.bottoms).idxOf a <
      ((members g id).flatMap Node.bottoms).idxOf b := by
  rw [h.bottoms_eq, outsideProducers, ← List.filter_flatMap]
  exact pairwise_eraseDups_filter _ _

/-! ## Readers -/

section

variable (hm : Node.Mirrored g.nodes)

include hm

/-- The tops of a node that leave the partition are the nodes outside that read it. -/
theorem mem_outsideReaders_iff (hn : n ∈ g.nodes) :
    t ∈ outsideReaders (memberNames g id) n ↔ ∃ c, ReadsOutside g id n c ∧ c.name = t := by
  rw [outsideReaders, List.mem_filter, decide_eq_true_eq]
  constructor
  · rintro ⟨ht, hout⟩
    obtain ⟨c, hc, rfl, hb⟩ := hm.bottom_of_top n hn t ht
    exact ⟨c, ⟨hc, fun hs => hout (mem_memberNames_of_subgraph hc hs), hb⟩, rfl⟩
  · rintro ⟨c, ⟨hc, hs, hb⟩, rfl⟩
    obtain ⟨x, hx, hname, ht⟩ := hm.top_of_bottom c hc n.name hb
    rw [Node.eq_of_name_eq g.nodup hx hn hname] at ht
    exact ⟨ht, fun hin => hs (subgraph_of_mem_memberNames hc hin)⟩

/-- A node that nobody reads has no tops, and the other way round. -/
theorem tops_eq_nil_iff (hn : n ∈ g.nodes) :
    n.tops = [] ↔ ∀ c ∈ g.nodes, n.name ∉ c.bottoms := by
  constructor
  · intro htops c hc hb
    obtain ⟨x, hx, hname, ht⟩ := hm.top_of_bottom c hc n.name hb
    rw [Node.eq_of_name_eq g.nodup hx hn hname, htops] at ht
    cases ht
  · intro h
    refine List.eq_nil_iff_forall_not_mem.2 fun t ht => ?_
    obtain ⟨c, hc, -, hb⟩ := hm.bottom_of_top n hn t ht
    exact h c hc hb

/-- The outputs are the members that are delivered. -/
theorem mem_outputs_iff_delivered :
    n ∈ outputs g id ↔ n ∈ members g id ∧ Delivered g id n := by
  rw [mem_outputs]
  refine and_congr_right fun hn => ?_
  have hmem := (mem_members.1 hn).1
  rw [Delivered, tops_eq_nil_iff hm hmem, or_comm]
  refine or_congr_left ?_
  constructor
  · rintro ⟨t, ht, hout⟩
    obtain ⟨c, hc, -⟩ :=
      (mem_outsideReaders_iff hm hmem).1 (List.mem_filter.2 ⟨ht, decide_eq_true hout⟩)
    exact ⟨c, hc⟩
  · rintro ⟨c, hc⟩
    have ht := (mem_outsideReaders_iff hm hmem).2 ⟨c, hc, rfl⟩
    rw [outsideReaders, List.mem_filter, decide_eq_true_eq] at ht
    exact ⟨c.name, ht⟩

end

/-! ## Descriptions -/

theorem Summary.shapes_aligned (h : Summary g id p) :
    List.Forall₂ (fun o s => ∃ n ∈ members g id, n.name = o ∧ n.shapes = .tensor s)
      p.outputNames p.shapes := by
  have hs := h.shapes_eq
  rw [← List.forall₂_eq_eq_eq, List.forall₂_map_left_iff, List.forall₂_map_right_iff] at hs
  rw [h.outputNames_eq, List.forall₂_map_left_iff]
  have hmem : ∀ n ∈ outputs g id, n ∈ members g id := fun n hn => mem_members_of_mem_outputs hn
  exact ((List.forall₂_and_left _ _).2 ⟨hmem, hs⟩).imp fun n s hn => ⟨n, hn.1, rfl, hn.2⟩

theorem Summary.mem_keys_readers (h : Summary g id p) {o : String} :
    o ∈ p.readers.keys ↔ o ∈ p.outputNames := by
  rw [h.readers_eq, Dict.mem_keys_ofList, List.map_map, h.outputNames_eq]
  rfl

theorem Summary.describes (h : Summary g id p) (hm : Node.Mirrored g.nodes) :
    p.Describes g id where
  id_eq := h.id_eq
  target_eq := h.target_eq
  inputNames_eq := h.inputNames_eq
  nodup_bottoms := h.nodup_bottoms
  mem_bottoms _ := h.mem_bottoms_iff_exists
  bottoms_in_order := h.bottoms_in_order
  outputNames_sublist := by
    rw [h.outputNames_eq]
    exact (List.filter_sublist.trans List.filter_sublist).map Node.name
  mem_outputNames o := by
    rw [h.mem_outputNames]
    constructor
    · rintro ⟨n, hn, rfl⟩
      obtain ⟨hn, hd⟩ := (mem_outputs_iff_delivered hm).1 hn
      exact ⟨n, hn, rfl, hd⟩
    · rintro ⟨n, hn, rfl, hd⟩
      exact ⟨n, (mem_outputs_iff_delivered hm).2 ⟨hn, hd⟩, rfl⟩
  shapes_aligned := h.shapes_aligned
  ordered_readers := by
    rw [h.readers_eq]
    exact Dict.ordered_ofList _
  mem_keys_readers _ := h.mem_keys_readers
  mem_readers n hn ts hts t := by
    have hkey : n.name ∈ p.readers.keys := by
      rw [Dict.mem_keys_iff_isSome, hts]
      rfl
    obtain ⟨m, hm', hname⟩ := h.mem_outputNames.1 (h.mem_keys_readers.1 hkey)
    have hmem := (mem_members.1 (mem_members_of_mem_outputs hm')).1
    obtain rfl := Node.eq_of_name_eq g.nodup hmem (mem_members.1 hn).1 hname
    rw [h.readers_get? hm', Option.some.injEq] at hts
    rw [← hts, mem_outsideReaders_iff hm hmem]
  nodup_tops := by
    rw [h.tops_eq]
    exact nodup_eraseDups _
  mem_tops t := by
    rw [h.tops_eq, List.mem_eraseDups, List.mem_flatMap]
    constructor
    · rintro ⟨n, hn, ht⟩
      have hmem := mem_members_of_mem_outputs hn
      exact ⟨n, hmem, (mem_outsideReaders_iff hm (mem_members.1 hmem).1).1 ht⟩
    · rintro ⟨n, hn, c, hc, rfl⟩
      refine ⟨n, (mem_outputs_iff_delivered hm).2 ⟨hn, Or.inl ⟨c, hc⟩⟩, ?_⟩
      exact (mem_outsideReaders_iff hm (mem_members.1 hn).1).2 ⟨c, hc, rfl⟩

/-! ## All partitions of a graph -/

theorem keys_of_tagged {ps : Dict Partition} (h : tagged g = .ok ps) : ps.keys = tags g := by
  obtain ⟨es, hes, he⟩ := Outcome.bind_eq_ok.1 h
  cases he
  rw [Outcome.mapM_eq_ok] at hes
  show es.map Prod.fst = tags g
  clear h
  generalize tags g = ids at hes
  induction hes with
  | nil => rfl
  | cons he _ ih =>
      obtain ⟨p, -, rfl⟩ := Outcome.map_eq_ok.1 he
      rw [List.map_cons, ih]

theorem ordered_of_tagged {ps : Dict Partition} (h : tagged g = .ok ps) : ps.Ordered := by
  have hkeys : (tags g).Pairwise (· < ·) := Dict.pairwise_keys (Dict.ordered_ofList _)
  rw [← keys_of_tagged h] at hkeys
  exact List.pairwise_map.1 hkeys

theorem exists_get?_of_tagged {ps : Dict Partition} (h : tagged g = .ok ps) :
    (∃ p, ps.get? id = some p) ↔ ∃ n ∈ g.nodes, n.subgraph = some id := by
  rw [← Option.isSome_iff_exists, ← Dict.mem_keys_iff_isSome, keys_of_tagged h, mem_tags]

theorem exists_tagged_iff (hm : Node.Mirrored g.nodes) :
    (∃ ps, tagged g = .ok ps) ↔ Describable g := by
  constructor
  · rintro ⟨ps, h⟩ id
    have hsum : ∀ n ∈ members g id, ∃ p, Summary g id p := by
      intro n hn
      obtain ⟨p, -, hp⟩ := exists_get?_of_subgraph h (mem_members.1 hn).1 (mem_members.1 hn).2
      exact ⟨p, hp⟩
    refine ⟨fun m hm' n hn => ?_, fun n hn hd => ?_⟩
    · obtain ⟨p, hp⟩ := hsum m hm'
      rw [hp.target_eq m hm', hp.target_eq n hn]
    · obtain ⟨p, hp⟩ := hsum n hn
      have hout := hp.isTuple_outputs ((mem_outputs_iff_delivered hm).2 ⟨hn, hd⟩)
      cases hs : n.shapes with
      | tensor s => exact ⟨s, rfl⟩
      | tuple items =>
          rw [hs] at hout
          cases hout
  · intro h
    refine exists_tagged_eq_ok fun id hid => ?_
    obtain ⟨m, hmem, hs⟩ := mem_tags.1 hid
    have hm' : m ∈ members g id := mem_members.2 ⟨hmem, hs⟩
    refine exists_summarize_eq_ok m.target (fun n hn => (h id).1 n hn m hm') fun n hn => ?_
    obtain ⟨hn, hd⟩ := (mem_outputs_iff_delivered hm).1 hn
    obtain ⟨s, hs⟩ := (h id).2 n hn hd
    rw [hs]
    rfl

/-- The tags of a valid graph make partitions exactly if it is describable; then there is one for
each tag in use, and it tells what crosses the boundary. -/
theorem tagged_describes (hg : g.validate = .ok ()) :
    ((∃ ps, tagged g = .ok ps) ↔ Describable g) ∧
      ∀ ps, tagged g = .ok ps → ps.Ordered ∧
        (∀ id, (∃ p, ps.get? id = some p) ↔ ∃ n ∈ g.nodes, n.subgraph = some id) ∧
          ∀ id p, ps.get? id = some p → p.Describes g id := by
  obtain ⟨hm, -⟩ := Graph.validate_eq_ok.1 hg
  refine ⟨exists_tagged_iff hm, fun ps h => ?_⟩
  refine ⟨ordered_of_tagged h, fun id => exists_get?_of_tagged h, fun id p hp => ?_⟩
  exact (summary_of_get? h hp).describes hm

def braid : Graph where
  name := "braid"
  nodes := [
    { name := "x", types := ["Input"], shapes := .tensor ⟨[1]⟩, tops := ["a"] },
    { name := "a", types := ["Relu"], shapes := .tensor ⟨[2]⟩, bottoms := ["x"],
      tops := ["k", "b", "k"], subgraph := some "xp0", target := "dpu" },
    { name := "k", types := ["Sigmoid"], shapes := .tensor ⟨[3]⟩, bottoms := ["a"],
      tops := ["b", "out"], subgraph := some "xp1", target := "npu" },
    { name := "b", types := ["Concat"], shapes := .tensor ⟨[4]⟩, bottoms := ["a", "k", "a"],
      tops := ["out"], subgraph := some "xp0", target := "dpu" },
    { name := "out", types := ["Concat"], shapes := .tensor ⟨[5]⟩, bottoms := ["k", "b"] }]
  compilerOutput := none
  nodup := by simp
  closed := by simp

theorem tagged_describes_braid :
    braid.validate = .ok () ∧ Describable braid ∧
      ∃ ps p, tagged braid = .ok ps ∧ ps.get? "xp0" = some p ∧ p.Describes braid "xp0" ∧
        p.inputNames = ["x", "k"] ∧ p.outputNames = ["a", "b"] ∧ p.shapes = [⟨[2]⟩, ⟨[4]⟩] ∧
          p.tops = ["k", "out"] := by
  have hg : braid.validate = .ok () := by decide +kernel
  have hfields : (tagged braid).map (fun ps => (ps.get? "xp0").map fun p =>
      (p.inputNames, p.outputNames, p.shapes, p.tops)) =
        .ok (some (["x", "k"], ["a", "b"], [⟨[2]⟩, ⟨[4]⟩], ["k", "out"])) := by
    decide +kernel
  obtain ⟨hiff, hall⟩ := tagged_describes hg
  obtain ⟨ps, hps, hfields⟩ := Outcome.map_eq_ok.1 hfields
  obtain ⟨p, hp, hfields⟩ := Option.map_eq_some_iff.1 hfields
  simp only [Prod.mk.injEq] at hfields
  exact ⟨hg, hiff.1 ⟨ps, hps⟩, ps, p, hps, hp, (hall ps hps).2.2 _ p hp, hfields⟩

end Partition

end Dataflow
