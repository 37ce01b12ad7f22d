import Dataflow.Proofs.Substitution.Quotient
import Dataflow.Proofs.Substitution.Sequence

/-!
# Builds in any order

The order in which a graph is built for different devices does not matter, if no partition has the
name of a node. What is left of the graph is told by `Rewritten`, which does not mention the order;
tops are told by bottoms, since edges are recorded on both ends.

That builds succeed in one order if they do in another takes an argument about cycles: a graph after
some of the builds, with the partitions of a further device merged, has no cycle if the graph after
all of the builds has none. Its nodes are sent to the vertices of all of the devices. An edge then
becomes a chain of edges of the graph after all builds, by way of accessors, or it joins two members
of one partition, where it is an edge of the graph it comes from. A cycle would become a cycle of
one of the two graphs.
-/

namespace Dataflow

open Relation Dataflow.Partition

/-- A chain of steps that are sent to chains of a second relation, or else stay in place and are
steps of a third one, is sent to a chain of the second one, or stays in place all along. -/
theorem transGen_or_of_forall {α β : Type} {r s : α → α → Prop} {t : β → β → Prop} {f : α → β}
    (h : ∀ a b, r a b → (f a = f b ∧ s a b) ∨ TransGen t (f a) (f b)) {a b : α}
    (hab : TransGen r a b) : (f a = f b ∧ TransGen s a b) ∨ TransGen t (f a) (f b) := by
  induction hab with
  | single hab => exact (h _ _ hab).imp_left fun ⟨he, hs⟩ => ⟨he, .single hs⟩
  | tail _ hbc ih =>
      rcases ih with ⟨he, hs⟩ | ht
      · rcases h _ _ hbc with ⟨he', hs'⟩ | ht'
        · exact Or.inl ⟨he.trans he', hs.tail hs'⟩
        · exact Or.inr (he ▸ ht')
      · rcases h _ _ hbc with ⟨he', -⟩ | ht'
        · exact Or.inr (he' ▸ ht)
        · exact Or.inr (ht.trans ht')

def Node.vertexAmong (targets : List String) (n : Node) : String :=
  if n.target ∈ targets then n.subgraph.getD n.name else n.name

theorem Node.vertexAmong_of_subgraph {targets : List String} {n : Node} {id : String}
    (hs : n.subgraph = some id) (ht : n.target ∈ targets) : n.vertexAmong targets = id := by
  rw [vertexAmong, if_pos ht, hs, Option.getD_some]

theorem Node.vertexAmong_of_notAssignedTo {targets : List String} {n : Node}
    (h : ¬n.AssignedTo targets) : n.vertexAmong targets = n.name := by
  rw [vertexAmong]
  split
  · next ht =>
    cases hs : n.subgraph with
    | none => rfl
    | some id => exact absurd ⟨by rw [hs]; rfl, ht⟩ h
  · rfl

theorem Node.Relinked.vertexAmong_eq {targets : List String} {m x : Node} (h : m.Relinked x) :
    x.vertexAmong targets = m.vertexAmong targets := by
  obtain ⟨_, rfl⟩ := h
  rfl

namespace Graph

def TagsFree (g : Graph) : Prop := ∀ id ∈ tags g, id ∉ g.names

/-- The vertex of the node of a name, which is the name itself if there is no such node. -/
def vertexAmong (g : Graph) (targets : List String) (name : String) : String :=
  match g.get? name with
  | some n => n.vertexAmong targets
  | none => name

variable {g : Graph} {targets : List String}

theorem vertexAmong_name {n : Node} (hn : n ∈ g.nodes) :
    g.vertexAmong targets n.name = n.vertexAmong targets := by
  rw [vertexAmong, get?_eq_some_iff.2 ⟨hn, rfl⟩]

theorem vertexAmong_of_notMem {name : String} (h : name ∉ g.names) :
    g.vertexAmong targets name = name := by
  rw [vertexAmong]
  split
  · next n hget =>
    obtain ⟨hn, rfl⟩ := get?_eq_some_iff.1 hget
    exact absurd (List.mem_map_of_mem hn) h
  · rfl

theorem vertexAmong_vertex (hf : g.TagsFree) {target : String} (ht : target ∈ targets) {n : Node}
    (hn : n ∈ g.nodes) : g.vertexAmong targets (n.vertex target) = n.vertexAmong targets := by
  by_cases htarget : n.target = target
  · cases hs : n.subgraph with
    | none =>
        rw [Node.vertex, if_pos htarget, hs]
        exact vertexAmong_name hn
    | some id =>
        rw [Node.vertex, if_pos htarget, hs, Option.getD_some,
          Node.vertexAmong_of_subgraph hs (htarget ▸ ht)]
        exact vertexAmong_of_notMem (hf id (mem_tags.2 ⟨n, hn, hs⟩))
  · rw [Node.vertex, if_neg htarget, vertexAmong_name hn]

end Graph

namespace Builder

variable {g h h' : Graph} {os os' : List BuildOptions} {o : BuildOptions} {id : String}
  {m n x y : Node}

namespace Rewritten

/-! ## Names -/

section

variable (R : Rewritten g os h) (hf : g.TagsFree)

include R hf

theorem exists_represents_of_name (hx : x ∈ h.nodes) (hname : x.name ∈ g.names) :
    ∃ m ∈ g.nodes, Represents g os m x := by
  refine (R.origin x hx).resolve_right ?_
  rintro ⟨o, -, id, ⟨n, hn, -⟩, hc⟩
  obtain ⟨hn, hs⟩ := mem_members.1 hn
  exact hf id (mem_tags.2 ⟨n, hn, hs⟩) (hc.name ▸ hname)

theorem represents_of_name (hx : x ∈ h.nodes) (hm : m ∈ g.nodes) (hname : x.name = m.name) :
    Represents g os m x := by
  obtain ⟨m', hm', hr⟩ :=
    R.exists_represents_of_name hf hx (hname ▸ List.mem_map_of_mem hm)
  rwa [Node.eq_of_name_eq g.nodup hm hm' (hname.symm.trans hr.name_eq)]

theorem collapses_of_name (hx : x ∈ h.nodes) (hid : x.name ∈ tags g) :
    ∃ o ∈ os, (∃ n ∈ members g x.name, n.target = o.target) ∧ Collapses g o x.name x := by
  rcases R.origin x hx with ⟨m, hm, hr⟩ | ⟨o, ho, id, hn, hc⟩
  · exact absurd (hr.name_eq ▸ List.mem_map_of_mem hm) (hf _ hid)
  · obtain rfl := hc.name
    exact ⟨o, ho, hn, hc⟩

theorem tagsFree : h.TagsFree := by
  intro id hid hname
  obtain ⟨x, hx, hs⟩ := mem_tags.1 hid
  obtain ⟨m, hm, hu, -⟩ := R.exists_of_mem_members (mem_members.2 ⟨hx, hs⟩)
  obtain ⟨hmem, hsm⟩ := mem_members.1 hm
  obtain ⟨y, hy, rfl⟩ := List.mem_map.1 hname
  obtain ⟨o, ho, ⟨n, hn, ht⟩, -⟩ := R.collapses_of_name hf hy (mem_tags.2 ⟨m, hmem, hsm⟩)
  refine R.notAssignedTo_of_mem hm hu hn ((assignedTo_of_mem_members hn).2 ?_)
  rw [ht]
  exact List.mem_map_of_mem ho

theorem feeds_of_member (hm : m ∈ members g id) (ha : m.AssignedTo (targets os))
    (hname : m.name ∈ h.names) : Node.Feeds h.nodes id m.name := by
  obtain ⟨y, hy, hname⟩ := List.mem_map.1 hname
  have hr := R.represents_of_name hf hy (mem_members.1 hm).1 hname
  obtain ⟨id', ho, hacc⟩ := hr.accesses_of_assigned ha
  obtain rfl := eq_of_mem_members hm (mem_members_of_mem_outputs ho)
  exact ⟨y, hy, hname, by rw [hacc.bottoms]; exact List.mem_singleton_self id⟩

end

/-! ## Cycles -/

section

variable (R : Rewritten g os h) (R' : Rewritten g os' h') (hsub : ∀ o ∈ os', o ∈ os)
  (hf : g.TagsFree)

include R

theorem feeds_of_collapsed (ho : o ∈ os) (hn : n ∈ members g id) (ht : n.target = o.target)
    {b : String} (hb : ∃ r ∈ members g id, b ∈ r.bottoms ∧ b ∉ memberNames g id) :
    Node.Feeds h.nodes b id := by
  obtain ⟨y, hy, hc⟩ := R.collapsed o ho id n hn ht
  exact ⟨y, hy, hc.name, (hc.bottoms b).2 hb⟩

include R' hf

/-- The vertex of a node is read where its name is, at once or by way of an accessor. -/
theorem transGen_feeds_of_name (hx : x ∈ h'.nodes) {v : String}
    (hv : Node.Feeds h.nodes x.name v) :
    TransGen (Node.Feeds h.nodes) (x.vertexAmong (targets os)) v := by
  by_cases ha : x.AssignedTo (targets os)
  · obtain ⟨id, hs⟩ := Option.isSome_iff_exists.1 ha.1
    obtain ⟨m, hm, -, _, rfl⟩ := R'.exists_of_mem_members (mem_members.2 ⟨hx, hs⟩)
    rw [Node.vertexAmong_of_subgraph hs ha.2]
    have hmem : m.name ∈ h.names := by
      obtain ⟨y, hy, -, hb⟩ := hv
      exact h.closed y hy m.name hb
    exact .tail (.single (R.feeds_of_member hf hm ha hmem)) hv
  · rw [Node.vertexAmong_of_notAssignedTo ha]
    exact .single hv

include hsub

/-- What a node reads its vertex reads, unless both are members of one partition. -/
theorem feeds_or_mem_members (hx : x ∈ h'.nodes) {b : String} (hb : b ∈ x.bottoms) :
    Node.Feeds h.nodes b (x.vertexAmong (targets os)) ∨
      ∃ id, x ∈ members h' id ∧ x.target ∈ targets os ∧ b ∈ memberNames g id := by
  rcases R'.origin x hx with ⟨m, hm, hr⟩ | ⟨o, ho, id, ⟨n, hn, ht⟩, hc⟩
  · cases hr with
    | kept hu' hk =>
        rw [hk.vertexAmong_eq]
        obtain ⟨_, rfl⟩ := hk
        by_cases ha : m.AssignedTo (targets os)
        · obtain ⟨id, hs⟩ := Option.isSome_iff_exists.1 ha.1
          by_cases hin : b ∈ memberNames g id
          · exact Or.inr ⟨id, mem_members.2 ⟨hx, hs⟩, ha.2, hin⟩
          · obtain ⟨o, ho, ht⟩ := List.mem_map.1 ha.2
            have hmem : m ∈ members g id := mem_members.2 ⟨hm, hs⟩
            rw [Node.vertexAmong_of_subgraph hs ha.2]
            exact Or.inl (R.feeds_of_collapsed ho hmem ht.symm ⟨m, hmem, hb, hin⟩)
        · obtain ⟨_, hy, _, rfl⟩ := R.exists_kept hm ha
          rw [Node.vertexAmong_of_notAssignedTo ha]
          exact Or.inl ⟨_, hy, rfl, hb⟩
    | accessor id hout ht hacc =>
        have hmem := mem_members_of_mem_outputs hout
        obtain ⟨o, ho, htarget⟩ := List.mem_map.1 ht
        have ha : m.AssignedTo (targets os) :=
          (assignedTo_of_mem_members hmem).2 (htarget ▸ List.mem_map_of_mem (hsub o ho))
        obtain ⟨y, hy, hr⟩ := R.represented m hm (Or.inr ⟨id, hout⟩)
        have hname : m.name ∈ h.names := hr.name_eq ▸ List.mem_map_of_mem hy
        rw [hacc.bottoms, List.mem_singleton] at hb
        rw [Node.vertexAmong_of_notAssignedTo (Node.notAssignedTo_of_subgraph hacc.subgraph),
          hacc.name, hb]
        exact Or.inl (R.feeds_of_member hf hmem ha hname)
  · rw [Node.vertexAmong_of_notAssignedTo (Node.notAssignedTo_of_subgraph hc.subgraph), hc.name]
    exact Or.inl (R.feeds_of_collapsed (hsub o ho) hn ht ((hc.bottoms b).1 hb))

/-- An edge joins two members of one partition, or its ends are joined by a chain of edges of the
graph after all builds. -/
theorem together_or_transGen (hx : x ∈ h'.nodes) (hy : y ∈ h'.nodes) (hb : x.name ∈ y.bottoms) :
    (∃ id, x ∈ members h' id ∧ y ∈ members h' id ∧ x.target = y.target ∧ y.target ∈ targets os) ∨
      TransGen (Node.Feeds h.nodes) (x.vertexAmong (targets os)) (y.vertexAmong (targets os)) := by
  rcases R.feeds_or_mem_members R' hsub hf hy hb with hv | ⟨id, hmem, ht, hin⟩
  · exact Or.inr (R.transGen_feeds_of_name R' hf hx hv)
  · obtain ⟨n, hn, hu, _, rfl⟩ := R'.exists_of_mem_members hmem
    obtain ⟨m, hm, hname⟩ := List.mem_map.1 hin
    obtain ⟨hm', hs⟩ := mem_members.1 hm
    have hum := R'.notAssignedTo_of_mem hn hu hm
    obtain ⟨_, rfl⟩ := (R'.represents_of_name hf hx hm' hname.symm).relinked_of_notAssigned hum
    have htarget := R.together id n hn ((assignedTo_of_mem_members hn).2 ht) m hm
    exact Or.inl ⟨id, mem_members.2 ⟨hx, hs⟩, hmem, htarget, ht⟩

/-- An edge of the graph after some builds, with the partitions of a further device merged, stays
within a vertex as an edge of this graph, or becomes a chain of edges of the graph after all. -/
theorem merged_cases {target u v : String} (ht : target ∈ targets os)
    (he : h'.Merged target u v) :
    (h'.vertexAmong (targets os) u = h'.vertexAmong (targets os) v ∧ Node.Feeds h'.nodes u v) ∨
      TransGen (Node.Feeds h.nodes) (h'.vertexAmong (targets os) u)
        (h'.vertexAmong (targets os) v) := by
  obtain ⟨x, hx, y, hy, hb, hnot, rfl, rfl⟩ := he
  have hf' := R'.tagsFree hf
  rw [Graph.vertexAmong_vertex hf' ht hx, Graph.vertexAmong_vertex hf' ht hy]
  refine (R.together_or_transGen R' hsub hf hx hy hb).imp_left ?_
  rintro ⟨id, hmx, hmy, htarget, hmem⟩
  have hsx := (mem_members.1 hmx).2
  have hsy := (mem_members.1 hmy).2
  rw [Node.vertexAmong_of_subgraph hsx (htarget ▸ hmem), Node.vertexAmong_of_subgraph hsy hmem]
  have hne : y.target ≠ target := fun hy' => hnot ⟨htarget.trans hy', hy', id, hsx, hsy⟩
  rw [Node.vertex, Node.vertex, if_neg (htarget ▸ hne), if_neg hne]
  exact ⟨rfl, y, hy, rfl, hb⟩

/-- Builds that come to an end leave no cycle on the way. -/
theorem not_cyclic_merged {target : String} (ht : target ∈ targets os) :
    ¬∃ u, TransGen (h'.Merged target) u u := by
  rintro ⟨u, hu⟩
  rcases transGen_or_of_forall (fun _ _ he => R.merged_cases R' hsub hf ht he) hu with ⟨-, hc⟩ | hc
  · exact Graph.not_cyclic_of_validate R'.valid ⟨u, hc⟩
  · exact Graph.not_cyclic_of_validate R.valid ⟨_, hc⟩

end

end Rewritten

/-! ## Success in any order -/

variable {v : Bool}

theorem exists_tagged_of_buildAll (ht : ∃ ps, Partition.tagged g = .ok ps)
    (hb : ({ verify := v } : Builder).buildAll g os = .ok h) :
    ∃ ps, Partition.tagged h = .ok ps := by
  induction os generalizing g with
  | nil =>
      cases hb
      exact ht
  | cons o os ih =>
      obtain ⟨h₁, r, hb, hrest⟩ := buildAll_cons_eq_ok.1 hb
      obtain ⟨ps, new, net, hcon, hperm, -⟩ := exists_contraction hb
      exact ih (hcon.exists_tagged hperm) hrest

theorem validate_of_buildAll (hb : ({ verify := v } : Builder).buildAll g os = .ok h) :
    ∀ o ∈ os, o.validate = .ok () := by
  induction os generalizing g with
  | nil => exact fun _ ho => nomatch ho
  | cons o os ih =>
      obtain ⟨h₁, r, hb, hrest⟩ := buildAll_cons_eq_ok.1 hb
      rw [List.forall_mem_cons]
      exact ⟨(build_eq_ok.1 hb).1, ih hrest⟩

/-- If a graph can be built for some devices one after the other, it can be built for any of them,
in any order. -/
theorem exists_buildAll_of_subset (hg : g.validate = .ok ()) (hf : g.TagsFree)
    (hd : (targets os).Nodup) (hb : ({ verify := v } : Builder).buildAll g os = .ok h)
    (hd' : (targets os').Nodup) (hsub : ∀ o ∈ os', o ∈ os) :
    ∃ h', ({ verify := v } : Builder).buildAll g os' = .ok h' := by
  induction os' using List.reverseRecOn with
  | nil => exact ⟨g, rfl⟩
  | append_singleton os' o ih =>
      have R := rewritten_of_buildAll hg hd hb
      rw [targets_append, List.nodup_append] at hd'
      have hsub' : ∀ o ∈ os', o ∈ os := fun o ho => hsub o (List.mem_append_left _ ho)
      have ho : o ∈ os := hsub o (List.mem_append_right _ (List.mem_singleton_self o))
      obtain ⟨h', hb'⟩ := ih hd'.1 hsub'
      have R' := rewritten_of_buildAll hg hd'.1 hb'
      -- the tags of the graph made partitions when it was first built
      have htags : ∃ ps, Partition.tagged g = .ok ps := by
        cases os with
        | nil => cases ho
        | cons o' os =>
            obtain ⟨h₁, r, hb, -⟩ := buildAll_cons_eq_ok.1 hb
            obtain ⟨-, -, ⟨ps, hps, -⟩, -⟩ := build_eq_ok.1 hb
            exact ⟨ps, hps⟩
      obtain ⟨ps, hps⟩ := exists_tagged_of_buildAll htags hb'
      have hfree : ∀ id p, ps.get? id = some p → p.target = o.target → id ∉ h'.names :=
        fun id p hp _ => R'.tagsFree hf id ((Partition.tagged_eq_ok hps).1 hp).1
      rcases build_cases R'.valid (validate_of_buildAll hb o ho) hps hfree v with
        ⟨⟨h'', r, hlast⟩, -⟩ | ⟨-, hc⟩
      · exact ⟨h'', buildAll_append_eq_ok.2 ⟨h', hb', buildAll_cons_eq_ok.2 ⟨h'', r, hlast, rfl⟩⟩⟩
      · have ht : o.target ∈ targets os := List.mem_map_of_mem ho
        exact absurd hc (R.not_cyclic_merged R' hsub' hf ht)

/-! ## Equal results -/

end Builder

/-- The nodes agree on types and target, and have the same bottoms and tops in some order. -/
structure Node.Agrees (x y : Node) : Prop where
  types : x.types = y.types
  target : x.target = y.target
  bottoms : ∀ b, b ∈ x.bottoms ↔ b ∈ y.bottoms
  tops : ∀ t, t ∈ x.tops ↔ t ∈ y.tops

/-- The graphs have nodes of the same names, and nodes of the same name agree. -/
structure Graph.Agrees (g h : Graph) : Prop where
  names : ∀ name, name ∈ g.names ↔ name ∈ h.names
  nodes : ∀ x ∈ g.nodes, ∀ y ∈ h.nodes, x.name = y.name → x.Agrees y

theorem Node.Mirrored.mem_tops_iff {g : Graph} (hm : Node.Mirrored g.nodes) {x : Node}
    (hx : x ∈ g.nodes) {t : String} :
    t ∈ x.tops ↔ ∃ y ∈ g.nodes, y.name = t ∧ x.name ∈ y.bottoms := by
  refine ⟨hm.bottom_of_top x hx t, ?_⟩
  rintro ⟨y, hy, rfl, hb⟩
  obtain ⟨z, hz, hname, ht⟩ := hm.top_of_bottom y hy x.name hb
  rwa [Node.eq_of_name_eq g.nodup hz hx hname] at ht

namespace Builder

variable {g h h' : Graph} {os os' : List BuildOptions} {o₁ o₂ : BuildOptions} {id : String}
  {m x y : Node} {v : Bool}

namespace Represents

theorem congr (hmem : ∀ o, o ∈ os ↔ o ∈ os') (hr : Represents g os m x) :
    Represents g os' m x := by
  have htargets : ∀ t, t ∈ targets os ↔ t ∈ targets os' := fun t => by
    simp only [targets, List.mem_map, hmem]
  cases hr with
  | kept hm hx => exact .kept (fun ha => hm ⟨ha.1, (htargets _).2 ha.2⟩) hx
  | accessor id ho ht ha => exact .accessor id ho ((htargets _).1 ht) ha

theorem agrees (hr : Represents g os m x) (hr' : Represents g os m y) :
    x.types = y.types ∧ x.target = y.target ∧ x.bottoms = y.bottoms := by
  by_cases ha : m.AssignedTo (targets os)
  · obtain ⟨id, ho, hx⟩ := hr.accesses_of_assigned ha
    obtain ⟨id', ho', hy⟩ := hr'.accesses_of_assigned ha
    obtain rfl :=
      eq_of_mem_members (mem_members_of_mem_outputs ho) (mem_members_of_mem_outputs ho')
    exact ⟨hx.types.trans hy.types.symm, hx.target.trans hy.target.symm,
      hx.bottoms.trans hy.bottoms.symm⟩
  · obtain ⟨_, rfl⟩ := hr.relinked_of_notAssigned ha
    obtain ⟨_, rfl⟩ := hr'.relinked_of_notAssigned ha
    exact ⟨rfl, rfl, rfl⟩

end Represents

namespace Rewritten

variable (R : Rewritten g os h) (R' : Rewritten g os' h') (hmem : ∀ o, o ∈ os ↔ o ∈ os')

include R R' hmem

theorem mem_names_of_mem {name : String} (hname : name ∈ h.names) : name ∈ h'.names := by
  obtain ⟨x, hx, rfl⟩ := List.mem_map.1 hname
  rcases R.origin x hx with ⟨m, hm, hr⟩ | ⟨o, ho, id, ⟨n, hn, ht⟩, hc⟩
  · have hcase : ¬m.AssignedTo (targets os') ∨ ∃ id, m ∈ outputs g id := by
      cases hr.congr hmem with
      | kept hu _ => exact Or.inl hu
      | accessor id ho _ _ => exact Or.inr ⟨id, ho⟩
    obtain ⟨y, hy, hr'⟩ := R'.represented m hm hcase
    exact List.mem_map.2 ⟨y, hy, hr'.name_eq.trans hr.name_eq.symm⟩
  · obtain ⟨y, hy, hc'⟩ := R'.collapsed o ((hmem o).1 ho) id n hn ht
    exact List.mem_map.2 ⟨y, hy, hc'.name.trans hc.name.symm⟩

variable (hd : (targets os).Nodup) (hf : g.TagsFree)

include hd hf

theorem agrees_of_name (hx : x ∈ h.nodes) (hy : y ∈ h'.nodes) (hname : x.name = y.name) :
    x.types = y.types ∧ x.target = y.target ∧ ∀ b, b ∈ x.bottoms ↔ b ∈ y.bottoms := by
  rcases R.origin x hx with ⟨m, hm, hr⟩ | ⟨o, ho, id, ⟨n, hn, ht⟩, hc⟩
  · have hr' := R'.represents_of_name hf hy hm (hname.symm.trans hr.name_eq)
    obtain ⟨htypes, htarget, hbottoms⟩ := (hr.congr hmem).agrees hr'
    exact ⟨htypes, htarget, fun b => by rw [hbottoms]⟩
  · obtain ⟨hnode, hs⟩ := mem_members.1 hn
    obtain rfl := hc.name.symm.trans hname
    obtain ⟨o', ho', ⟨n', hn', ht'⟩, hc'⟩ :=
      R'.collapses_of_name hf hy (mem_tags.2 ⟨n, hnode, hs⟩)
    have hassigned : n.AssignedTo (targets os) :=
      (assignedTo_of_mem_members hn).2 (ht ▸ List.mem_map_of_mem ho)
    have htarget : o.target = o'.target := by
      rw [← ht, ← ht', R.together _ n hn hassigned n' hn']
    obtain rfl := List.inj_on_of_nodup_map hd ho ((hmem o').2 ho') htarget
    exact ⟨hc.types.trans hc'.types.symm, hc.target.trans hc'.target.symm,
      fun b => (hc.bottoms b).trans (hc'.bottoms b).symm⟩

theorem agrees : h.Agrees h' where
  names name := ⟨R.mem_names_of_mem R' hmem, R'.mem_names_of_mem R fun o => (hmem o).symm⟩
  nodes x hx y hy hname := by
    obtain ⟨htypes, htarget, hbottoms⟩ := R.agrees_of_name R' hmem hd hf hx hy hname
    refine ⟨htypes, htarget, hbottoms, fun t => ?_⟩
    rw [R.mirrored.mem_tops_iff hx, R'.mirrored.mem_tops_iff hy]
    constructor
    · rintro ⟨z, hz, rfl, hb⟩
      obtain ⟨z', hz', he⟩ := List.mem_map.1 (R.mem_names_of_mem R' hmem (List.mem_map_of_mem hz))
      have hbottoms := (R.agrees_of_name R' hmem hd hf hz hz' he.symm).2.2 x.name
      exact ⟨z', hz', he, hname ▸ hbottoms.1 hb⟩
    · rintro ⟨z', hz', rfl, hb⟩
      obtain ⟨z, hz, he⟩ := List.mem_map.1
        (R'.mem_names_of_mem R (fun o => (hmem o).symm) (List.mem_map_of_mem hz'))
      have hbottoms := (R.agrees_of_name R' hmem hd hf hz hz' he).2.2 x.name
      exact ⟨z, hz, he, hbottoms.2 (hname ▸ hb)⟩

end Rewritten

/-- Builds for two devices can be exchanged: they succeed in both orders or in none, and then the
graphs they give agree, and have the nodes that belong to no partition of the two devices as they
were, but for their tops. -/
theorem buildAll_comm (hg : g.validate = .ok ()) (hf : g.TagsFree) (ht : o₁.target ≠ o₂.target)
    (v : Bool) :
    ((∃ h, ({ verify := v } : Builder).buildAll g [o₁, o₂] = .ok h) ↔
        ∃ h', ({ verify := v } : Builder).buildAll g [o₂, o₁] = .ok h') ∧
      ∀ h h', ({ verify := v } : Builder).buildAll g [o₁, o₂] = .ok h →
        ({ verify := v } : Builder).buildAll g [o₂, o₁] = .ok h' →
          h.Agrees h' ∧ ∀ n ∈ g.nodes, ¬n.AssignedTo [o₁.target, o₂.target] →
            ∃ x ∈ h.nodes, ∃ x' ∈ h'.nodes, n.Relinked x ∧ n.Relinked x' := by
  have hd : (targets [o₁, o₂]).Nodup := by simpa [targets] using ht
  have hd' : (targets [o₂, o₁]).Nodup := by simpa [targets] using ht.symm
  have hmem : ∀ o, o ∈ [o₁, o₂] ↔ o ∈ [o₂, o₁] := fun o => by
    rw [List.mem_pair, List.mem_pair, or_comm]
  refine ⟨⟨?_, ?_⟩, ?_⟩
  · rintro ⟨h, hb⟩
    exact exists_buildAll_of_subset hg hf hd hb hd' fun o ho => (hmem o).2 ho
  · rintro ⟨h', hb'⟩
    exact exists_buildAll_of_subset hg hf hd' hb' hd fun o ho => (hmem o).1 ho
  · intro h h' hb hb'
    have R := rewritten_of_buildAll hg hd hb
    have R' := rewritten_of_buildAll hg hd' hb'
    refine ⟨R.agrees R' hmem hd hf, fun n hn hu => ?_⟩
    obtain ⟨x, hx, hk⟩ := R.exists_kept hn hu
    have hu' : ¬n.AssignedTo (targets [o₂, o₁]) := fun ha =>
      hu ⟨ha.1, (List.Perm.swap o₁.target o₂.target []).mem_iff.1 ha.2⟩
    obtain ⟨x', hx', hk'⟩ := R'.exists_kept hn hu'
    exact ⟨x, hx, x', hx', hk, hk'⟩

theorem buildAll_relay_comm :
    relay.validate = .ok () ∧ relay.TagsFree ∧ forDpu.target ≠ forNpu.target ∧
      ∃ h h', ({} : Builder).buildAll relay [forDpu, forNpu] = .ok h ∧
        ({} : Builder).buildAll relay [forNpu, forDpu] = .ok h' ∧ h.Agrees h' ∧
          ∀ n ∈ relay.nodes, ¬n.AssignedTo [forDpu.target, forNpu.target] →
            ∃ x ∈ h.nodes, ∃ x' ∈ h'.nodes, n.Relinked x ∧ n.Relinked x' := by
  have hg : relay.validate = .ok () := by decide +kernel
  have hf : relay.TagsFree := by
    unfold Graph.TagsFree
    decide +kernel
  have ht : forDpu.target ≠ forNpu.target := by decide +kernel
  obtain ⟨hiff, hagree⟩ := buildAll_comm hg hf ht true
  obtain ⟨h, hb⟩ := Outcome.exists_of_isOk
    (x := ({} : Builder).buildAll relay [forDpu, forNpu]) (by decide +kernel)
  obtain ⟨h', hb'⟩ := hiff.1 ⟨h, hb⟩
  exact ⟨hg, hf, ht, h, h', hb, hb', hagree h h' hb hb'⟩

end Builder

end Dataflow
