import Dataflow.Proofs.Substitution.Contraction

/-!
# Edges of the rewritten graph

Apart from those between a collapsed node and its own accessors, the edges of the rewritten graph
are those of the graph that join no two members of one collapsed partition. They leave from the
node that took over the name of the producer, a kept node or an accessor, and they go to the node
that its reader became, a kept or a collapsed node. `Reads` says so in terms of names; bottoms and
relinked tops both amount to it, so the edges are recorded on both ends.
-/

namespace Dataflow.Substitution.Context

open Dataflow.Partition

variable {c : Context} {new es : List (String × Partition)} {net : List Node}

/-! ## Redirected tops -/

def redirect (c : Context) (es : List (String × Partition)) (name t : String) : String :=
  es.foldl (fun t e =>
    if name ∈ e.2.bottoms ∧ t ∈ Partition.memberNames c.graph e.1 then e.1 else t) t

theorem mem_tops_relinked {x : Node} {t : String} :
    t ∈ (c.relinked es x).tops ↔ ∃ s ∈ x.tops, c.redirect es x.name s = t := by
  induction es generalizing x with
  | nil => simp [relinked, redirect]
  | cons e es ih =>
      have hr : c.relinked (e :: es) x =
          c.relinked es (if x.name ∈ e.2.bottoms then
            relinkTops e.1 (Partition.memberNames c.graph e.1) x else x) := rfl
      rw [hr, ih]
      by_cases hb : x.name ∈ e.2.bottoms
      · rw [if_pos hb]
        simp only [relinkTops, List.mem_eraseDups, List.mem_map]
        constructor
        · rintro ⟨_, ⟨s, hs, rfl⟩, rfl⟩
          refine ⟨s, hs, ?_⟩
          simp only [redirect, List.foldl_cons, hb, true_and]
        · rintro ⟨s, hs, rfl⟩
          refine ⟨_, ⟨s, hs, rfl⟩, ?_⟩
          simp only [redirect, List.foldl_cons, hb, true_and]
      · simp only [redirect, List.foldl_cons, hb, false_and, if_false]

theorem redirect_of_notMem {name t : String}
    (h : ∀ e ∈ es, name ∈ e.2.bottoms → t ∉ Partition.memberNames c.graph e.1) :
    c.redirect es name t = t := by
  induction es with
  | nil => rfl
  | cons e es ih =>
      have he : ¬(name ∈ e.2.bottoms ∧ t ∈ Partition.memberNames c.graph e.1) := by
        rintro ⟨hb, ht⟩
        exact h e List.mem_cons_self hb ht
      rw [redirect, List.foldl_cons, if_neg he]
      exact ih fun e' he' => h e' (List.mem_cons_of_mem _ he')

theorem redirect_of_mem {name t : String} {e : String × Partition} (he : e ∈ es)
    (hb : name ∈ e.2.bottoms) (ht : t ∈ Partition.memberNames c.graph e.1)
    (hu : ∀ e' ∈ es, t ∈ Partition.memberNames c.graph e'.1 → e' = e)
    (hid : ∀ e' ∈ es, e.1 ∉ Partition.memberNames c.graph e'.1) :
    c.redirect es name t = e.1 := by
  induction es with
  | nil => cases he
  | cons e' es ih =>
      rw [redirect, List.foldl_cons]
      by_cases hc : name ∈ e'.2.bottoms ∧ t ∈ Partition.memberNames c.graph e'.1
      · -- from here on the reader is no member, and no later entry sends it on
        rw [if_pos hc, hu e' List.mem_cons_self hc.2]
        exact redirect_of_notMem fun e'' he'' _ => hid e'' (List.mem_cons_of_mem _ he'')
      · rw [if_neg hc]
        have hne : e ≠ e' := by
          rintro rfl
          exact hc ⟨hb, ht⟩
        refine ih ((List.mem_cons.1 he).resolve_left hne) ?_ ?_
        · exact fun e'' he'' => hu e'' (List.mem_cons_of_mem _ he'')
        · exact fun e'' he'' => hid e'' (List.mem_cons_of_mem _ he'')

/-! ## Edges by names -/

/-- The node `t` of the graph is replaced by the node `t'` in the role of a reader. -/
inductive Becomes (c : Context) (new : List (String × Partition)) (t : String) : String → Prop
  | kept (h : ∀ e ∈ new, t ∉ Partition.memberNames c.graph e.1) : Becomes c new t t
  | collapsed (e : String × Partition) (he : e ∈ new)
      (h : t ∈ Partition.memberNames c.graph e.1) : Becomes c new t e.1

/-- The node that became `t` reads the node `b`, from outside its own collapsed partition. -/
def Reads (c : Context) (new : List (String × Partition)) (b t : String) : Prop :=
  ∃ r ∈ c.graph.nodes, b ∈ r.bottoms ∧ Apart c new b r.name ∧ Becomes c new r.name t

/-- The node `x` of the rewritten graph hands out the value of the node `m`. -/
structure StandsFor (c : Context) (new : List (String × Partition)) (x m : Node) : Prop where
  mem : m ∈ c.graph.nodes
  name_eq : x.name = m.name
  mem_tops : ∀ t, t ∈ x.tops ↔ t ∈ m.tops ∧ Apart c new m.name t

namespace Contraction

variable (h : Contraction c new net)

include h

theorem mem_entries {e : String × Partition} : e ∈ (Dict.ofList new).entries ↔ e ∈ new :=
  Dict.mem_entries_ofList h.replaced.nodup

theorem id_notMem_memberNames {e e' : String × Partition} (he : e ∈ new) :
    e.1 ∉ Partition.memberNames c.graph e'.1 :=
  fun hm => h.id_notMem he (memberNames_subset hm)

theorem becomes_unique {t t₁ t₂ : String} (h₁ : Becomes c new t t₁) (h₂ : Becomes c new t t₂) :
    t₁ = t₂ := by
  cases h₁ with
  | kept hk =>
      cases h₂ with
      | kept => rfl
      | collapsed e he ht => exact absurd ht (hk e he)
  | collapsed e he ht =>
      cases h₂ with
      | kept hk => exact absurd ht (hk e he)
      | collapsed e' he' ht' => rw [h.eq_of_mem_memberNames he he' ht ht']

theorem becomes_redirect {b : String} {r : Node} (hr : r ∈ c.graph.nodes) (hb : b ∈ r.bottoms)
    (ha : Apart c new b r.name) :
    Becomes c new r.name (c.redirect (Dict.ofList new).entries b r.name) := by
  by_cases hm : ∃ e ∈ new, r.name ∈ Partition.memberNames c.graph e.1
  · obtain ⟨e, he, hre⟩ := hm
    have hout : b ∉ Partition.memberNames c.graph e.1 := fun hbe => ha e he hbe hre
    have hbot : b ∈ e.2.bottoms := (h.summary he).mem_bottoms.2
      ⟨r, mem_members.2 ⟨hr, subgraph_of_mem_memberNames hr hre⟩, hb, hout⟩
    rw [redirect_of_mem (h.mem_entries.2 he) hbot hre]
    · exact .collapsed e he hre
    · exact fun e' he' hre' => h.eq_of_mem_memberNames (h.mem_entries.1 he') he hre' hre
    · exact fun e' _ => h.id_notMem_memberNames he
  · have hk : ∀ e ∈ new, r.name ∉ Partition.memberNames c.graph e.1 :=
      fun e he hre => hm ⟨e, he, hre⟩
    rw [redirect_of_notMem fun e he _ => hk e (h.mem_entries.1 he)]
    exact .kept hk

/-- The collapsed nodes keep the tops that they were made with. -/
theorem tops_relinked_collapsed {e : String × Partition} (he : e ∈ new) {x : Node}
    (hx : c.collapse e.2 = .ok x) {t : String} :
    t ∈ (c.relinked (Dict.ofList new).entries x).tops ↔ t ∈ e.2.outputNames := by
  obtain ⟨attrs, rfl⟩ := h.collapsed_spec he hx
  have hr : ∀ s, c.redirect (Dict.ofList new).entries e.1 s = s := fun s =>
    redirect_of_notMem fun e' he' hb =>
      absurd ((h.summary (h.mem_entries.1 he')).bottoms_subset hb) (h.id_notMem he)
  rw [mem_tops_relinked]
  simp only [hr, exists_eq_right]
  rfl

/-! ## Producers -/

theorem standsFor_kept {x : Node} (hx : x ∈ c.graph.nodes) (hc : c.claims x = false) :
    StandsFor c new x x where
  mem := hx
  name_eq := rfl
  mem_tops t := by
    have ha : Apart c new x.name t :=
      fun e he hm => absurd hm (h.notMem_memberNames_of_kept hx hc he)
    exact (and_iff_left ha).symm

theorem standsFor_accessor {e : String × Partition} (he : e ∈ new) {x m : Node}
    (hm : m ∈ outputs c.graph e.1) (hn : x.name = m.name)
    (ht : x.tops = outsideReaders (Partition.memberNames c.graph e.1) m) :
    StandsFor c new x m where
  mem := (mem_members.1 (mem_outputs.1 hm).1).1
  name_eq := hn
  mem_tops t := by
    have hin : m.name ∈ Partition.memberNames c.graph e.1 :=
      List.mem_map_of_mem (mem_outputs.1 hm).1
    rw [ht, outsideReaders, List.mem_filter, decide_eq_true_eq]
    refine and_congr_right fun _ => ⟨fun hout e' he' hm' => ?_, fun ha => ha e he hin⟩
    rwa [h.eq_of_mem_memberNames he' he hm' hin]

/-- A node that is read across the boundary of no or of different partitions is still there, or
has an accessor. -/
theorem exists_standsFor {m : Node} (hm : m ∈ c.graph.nodes) {t : String} (ht : t ∈ m.tops)
    (ha : Apart c new m.name t) : ∃ x ∈ net, StandsFor c new x m := by
  by_cases hc : c.claims m = true
  · obtain ⟨e, he, hs⟩ := h.replaced.complete _ hm hc
    have hout : t ∉ Partition.memberNames c.graph e.1 :=
      ha e he (mem_memberNames_of_subgraph hm hs)
    have ho : m ∈ outputs c.graph e.1 :=
      mem_outputs.2 ⟨mem_members.2 ⟨hm, hs⟩, Or.inr ⟨t, ht, hout⟩⟩
    obtain ⟨x, hx, hn, -, htops⟩ := h.exists_accessor he ho
    exact ⟨x, h.mem_net.2 (.accessor e he hx), h.standsFor_accessor he ho hn htops⟩
  · rw [Bool.not_eq_true] at hc
    exact ⟨m, h.mem_net.2 (.kept hm hc), h.standsFor_kept hm hc⟩

/-! ## Readers -/

theorem mem_bottoms_iff {x : Node} {b : String}
    (hx : (x ∈ c.graph.nodes ∧ c.claims x = false) ∨ ∃ e ∈ new, c.collapse e.2 = .ok x) :
    b ∈ x.bottoms ↔ Reads c new b x.name := by
  rcases hx with ⟨hx, hc⟩ | ⟨e, he, hx⟩
  · have hk : ∀ e ∈ new, x.name ∉ Partition.memberNames c.graph e.1 :=
      fun e he => h.notMem_memberNames_of_kept hx hc he
    constructor
    · exact fun hb => ⟨x, hx, hb, fun e he _ => hk e he, .kept hk⟩
    · rintro ⟨r, hr, hb, -, hbec⟩
      -- no collapsed partition has the name of a node, so the reader was kept as well
      generalize hn : x.name = n at hbec
      cases hbec with
      | kept => rwa [Node.eq_of_name_eq c.graph.nodup hx hr hn]
      | collapsed e he _ => exact absurd (hn ▸ List.mem_map_of_mem hx) (h.id_notMem he)
  · obtain ⟨attrs, rfl⟩ := h.collapsed_spec he hx
    have hs := h.summary he
    change b ∈ e.2.bottoms ↔ Reads c new b e.1
    rw [hs.mem_bottoms]
    constructor
    · rintro ⟨r, hr, hb, hout⟩
      have hin : r.name ∈ Partition.memberNames c.graph e.1 := List.mem_map_of_mem hr
      refine ⟨r, (mem_members.1 hr).1, hb, fun e' he' hb' hr' => ?_, .collapsed e he hin⟩
      rw [h.eq_of_mem_memberNames he' he hr' hin] at hb'
      exact hout hb'
    · rintro ⟨r, hr, hb, ha, hbec⟩
      generalize hid : e.1 = t at hbec
      cases hbec with
      | kept => exact absurd (hid ▸ List.mem_map_of_mem hr) (h.id_notMem he)
      | collapsed e' he' hin =>
          obtain rfl := h.eq_of_id_eq he he' hid
          exact ⟨r, mem_members.2 ⟨hr, subgraph_of_mem_memberNames hr hin⟩, hb,
            fun hbe => ha e he hbe hin⟩

theorem exists_of_becomes {r : Node} (hr : r ∈ c.graph.nodes) {t : String}
    (hb : Becomes c new r.name t) : ∃ x ∈ net, x.name = t ∧
      ((x ∈ c.graph.nodes ∧ c.claims x = false) ∨ ∃ e ∈ new, c.collapse e.2 = .ok x) := by
  cases hb with
  | kept hk =>
      have hc : c.claims r = false := by
        by_contra hc
        obtain ⟨e, he, hs⟩ := h.replaced.complete _ hr (by simpa using hc)
        exact hk e he (mem_memberNames_of_subgraph hr hs)
      exact ⟨r, h.mem_net.2 (.kept hr hc), rfl, Or.inl ⟨hr, hc⟩⟩
  | collapsed e he _ =>
      obtain ⟨-, -, x, hx⟩ := h.replaced.reported e he
      obtain ⟨attrs, hx'⟩ := h.collapsed_spec he hx
      exact ⟨x, h.mem_net.2 (.collapsed e he hx), by rw [hx'], Or.inr ⟨e, he, hx⟩⟩

/-! ## Mirrored edges -/

section

variable (hm : Node.Mirrored c.graph.nodes)

include hm

/-- The relinked tops of a node that hands out the value of `m`. -/
theorem mem_tops_iff {x m : Node} (hx : StandsFor c new x m) {t : String} :
    t ∈ (c.relinked (Dict.ofList new).entries x).tops ↔ Reads c new x.name t := by
  rw [mem_tops_relinked, hx.name_eq]
  constructor
  · rintro ⟨s, hs, rfl⟩
    obtain ⟨hs, ha⟩ := (hx.mem_tops s).1 hs
    obtain ⟨r, hr, rfl, hb⟩ := hm.bottom_of_top m hx.mem s hs
    exact ⟨r, hr, hb, ha, h.becomes_redirect hr hb ha⟩
  · rintro ⟨r, hr, hb, ha, hbec⟩
    obtain ⟨p, hp, hn, ht⟩ := hm.top_of_bottom r hr m.name hb
    rw [Node.eq_of_name_eq c.graph.nodup hp hx.mem hn] at ht
    exact ⟨r.name, (hx.mem_tops _).2 ⟨ht, ha⟩,
      h.becomes_unique (h.becomes_redirect hr hb ha) hbec⟩

/-- A node that is read across a boundary has a node that hands out its value. -/
theorem exists_standsFor_of_reads {b t : String} (hr : Reads c new b t) :
    ∃ x ∈ net, x.name = b ∧ ∃ m, StandsFor c new x m := by
  obtain ⟨r, hr, hb, ha, -⟩ := hr
  obtain ⟨m, hmem, rfl, ht⟩ := hm.top_of_bottom r hr b hb
  obtain ⟨x, hx, hs⟩ := h.exists_standsFor hmem ht ha
  exact ⟨x, hx, hs.name_eq, m, hs⟩

theorem top_of_bottom {x : Node} (hx : x ∈ net) {b : String} (hb : b ∈ x.bottoms) :
    ∃ y ∈ net, y.name = b ∧ x.name ∈ (c.relinked (Dict.ofList new).entries y).tops := by
  have hcase : (∃ e ∈ new, x ∈ c.accessors e.2) ∨ Reads c new b x.name := by
    cases h.mem_net.1 hx with
    | kept hx' hc => exact Or.inr ((h.mem_bottoms_iff (Or.inl ⟨hx', hc⟩)).1 hb)
    | collapsed e he hx' => exact Or.inr ((h.mem_bottoms_iff (Or.inr ⟨e, he, hx'⟩)).1 hb)
    | accessor e he hx' => exact Or.inl ⟨e, he, hx'⟩
  rcases hcase with ⟨e, he, hx'⟩ | hreads
  · obtain ⟨m, ho, hn, hbot, -⟩ := h.accessor_spec he hx'
    rw [hbot, List.mem_singleton] at hb
    subst hb
    obtain ⟨-, -, y, hy⟩ := h.replaced.reported e he
    obtain ⟨attrs, hy'⟩ := h.collapsed_spec he hy
    refine ⟨y, h.mem_net.2 (.collapsed e he hy), by rw [hy'], ?_⟩
    rw [h.tops_relinked_collapsed he hy, hn]
    exact (h.summary he).mem_outputNames.2 ⟨m, ho, rfl⟩
  · obtain ⟨y, hy, rfl, m, hs⟩ := h.exists_standsFor_of_reads hm hreads
    exact ⟨y, hy, rfl, (h.mem_tops_iff hm hs).2 hreads⟩

theorem bottom_of_top {x : Node} (hx : x ∈ net) {t : String}
    (ht : t ∈ (c.relinked (Dict.ofList new).entries x).tops) :
    ∃ y ∈ net, y.name = t ∧ x.name ∈ y.bottoms := by
  have hreads : ∀ m, StandsFor c new x m → ∃ y ∈ net, y.name = t ∧ x.name ∈ y.bottoms := by
    intro m hs
    have hr := (h.mem_tops_iff hm hs).1 ht
    obtain ⟨r, hmem, -, -, hbec⟩ := id hr
    obtain ⟨y, hy, rfl, hkind⟩ := h.exists_of_becomes hmem hbec
    exact ⟨y, hy, rfl, (h.mem_bottoms_iff hkind).2 hr⟩
  cases h.mem_net.1 hx with
  | kept hx' hc => exact hreads x (h.standsFor_kept hx' hc)
  | accessor e he hx' =>
      obtain ⟨m, ho, hn, -, htops⟩ := h.accessor_spec he hx'
      exact hreads m (h.standsFor_accessor he ho hn htops)
  | collapsed e he hx' =>
      rw [h.tops_relinked_collapsed he hx'] at ht
      obtain ⟨m, ho, rfl⟩ := (h.summary he).mem_outputNames.1 ht
      obtain ⟨y, hy, hn, hbot, -⟩ := h.exists_accessor he ho
      obtain ⟨attrs, rfl⟩ := h.collapsed_spec he hx'
      exact ⟨y, h.mem_net.2 (.accessor e he hy), hn, by rw [hbot, List.mem_singleton]⟩

/-- After relinking every edge is recorded on both of its ends. -/
theorem mirrored_relinked :
    Node.Mirrored (net.map (c.relinked (Dict.ofList new).entries)) where
  top_of_bottom n hn b hb := by
    obtain ⟨x, hx, rfl⟩ := List.mem_map.1 hn
    rw [relinked_bottoms] at hb
    obtain ⟨y, hy, rfl, ht⟩ := h.top_of_bottom hm hx hb
    exact ⟨_, List.mem_map_of_mem hy, relinked_name _ _, by rwa [relinked_name]⟩
  bottom_of_top n hn t ht := by
    obtain ⟨x, hx, rfl⟩ := List.mem_map.1 hn
    obtain ⟨y, hy, rfl, hb⟩ := h.bottom_of_top hm hx ht
    exact ⟨_, List.mem_map_of_mem hy, relinked_name _ _, by
      rwa [relinked_name, relinked_bottoms]⟩

theorem closed_net : ∀ x ∈ net, ∀ b ∈ x.bottoms, b ∈ net.map Node.name := by
  intro x hx b hb
  obtain ⟨y, hy, rfl, -⟩ := h.top_of_bottom hm hx hb
  exact List.mem_map_of_mem hy

theorem readable {e : String × Partition} (he : e ∈ new) {x : Node} (hx : x ∈ net) {b : String}
    (hb : b ∈ x.bottoms) (hin : b ∈ Partition.memberNames c.graph e.1) :
    b ∈ c.accessorNames new := by
  obtain ⟨y, hy, rfl, -⟩ := h.top_of_bottom hm hx hb
  have hacc : ∀ e' ∈ new, y ∈ c.accessors e'.2 → y.name ∈ c.accessorNames new :=
    fun e' he' hy' => List.mem_flatMap.2 ⟨e', he', List.mem_map_of_mem hy'⟩
  cases h.mem_net.1 hy with
  | kept hy' hc => exact absurd hin (h.notMem_memberNames_of_kept hy' hc he)
  | accessor e' he' hy' => exact hacc e' he' hy'
  | collapsed e' he' hy' =>
      obtain ⟨attrs, rfl⟩ := h.collapsed_spec he' hy'
      exact absurd hin (h.id_notMem_memberNames he')

end

end Contraction

end Dataflow.Substitution.Context
