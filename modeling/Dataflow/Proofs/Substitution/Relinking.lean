import Dataflow.Proofs.Substitution.Replacement

/-!
# Relinking

What the edges across the boundaries of collapsed partitions come to. Names stay, so the positions
that were noted down at the start hold to the end, and a pass over names changes the nodes that have
these names. The producers get new tops. The readers keep their bottoms, for an accessor has the
name of the output it stands for; all there is to say of them is when they are refused.
-/

namespace Dataflow.Substitution

/-! ## Changing nodes by name -/

section

variable {f : Node → Except GraphError Node} {g : Node → Node} {net net' : List Node}
  {name : String}

theorem get?_positions (hd : (net.map Node.name).Nodup) {i : Nat} :
    (Dict.ofList (net.map Node.name).zipIdx).get? name = some i ↔
      ∃ n, net[i]? = some n ∧ n.name = name := by
  rw [Dict.get?_ofList (by rwa [List.zipIdx_map_fst]), List.mem_zipIdx_iff_getElem?,
    List.getElem?_map, Option.map_eq_some_iff]

/-- At most one node is changed, which is the one of the name. -/
theorem update_of_ok (hd : (net.map Node.name).Nodup)
    (hf : ∀ n ∈ net, n.name = name → f n = .ok (g n)) :
    update (.ofList (net.map Node.name).zipIdx) f net name =
      .ok (net.map fun n => if n.name = name then g n else n) := by
  unfold update
  cases hp : (Dict.ofList (net.map Node.name).zipIdx).get? name with
  | none =>
      have hne : ∀ n ∈ net, n.name ≠ name := by
        intro n hn he
        obtain ⟨i, hi⟩ := List.mem_iff_getElem?.1 hn
        rw [(get?_positions hd).2 ⟨n, hi, he⟩] at hp
        cases hp
      refine congrArg Except.ok ?_
      rw [List.map_congr_left fun n hn => if_neg (hne n hn), List.map_id']
  | some i =>
      obtain ⟨n, hi, hn⟩ := (get?_positions hd).1 hp
      dsimp only
      rw [hi]
      dsimp only
      rw [hf n (List.mem_of_getElem? hi) hn]
      refine congrArg Except.ok (List.ext_getElem? fun j => ?_)
      rw [List.getElem?_set, List.getElem?_map]
      split
      · next hij =>
        subst hij
        rw [hi, Option.map_some, if_pos hn, if_pos (List.getElem?_eq_some_iff.1 hi).1]
      · next hij =>
        cases hj : net[j]? with
        | none => rfl
        | some m =>
            have hm : m.name ≠ name := by
              intro hm
              have hpj := (get?_positions hd).2 ⟨m, hj, hm⟩
              exact hij (Option.some.inj (hp.symm.trans hpj))
            rw [Option.map_some, if_neg hm]

theorem exists_of_update_eq_ok (hd : (net.map Node.name).Nodup)
    (h : update (.ofList (net.map Node.name).zipIdx) f net name = .ok net') :
    ∀ n ∈ net, n.name = name → ∃ x, f n = .ok x := by
  intro n hn he
  obtain ⟨i, hi⟩ := List.mem_iff_getElem?.1 hn
  unfold update at h
  rw [(get?_positions hd).2 ⟨n, hi, he⟩] at h
  dsimp only at h
  rw [hi] at h
  obtain ⟨x, hx, -⟩ := Outcome.map_eq_ok.1 h
  exact ⟨x, hx⟩

theorem map_name_of_update {position : Dict Nat} (hf : ∀ n x, f n = .ok x → x.name = n.name)
    (h : update position f net name = .ok net') : net'.map Node.name = net.map Node.name := by
  unfold update at h
  split at h
  · cases h
    rfl
  · next i _ =>
    split at h
    · cases h
      rfl
    · next n hi =>
      obtain ⟨x, hx, rfl⟩ := Outcome.map_eq_ok.1 h
      obtain ⟨hlt, hn⟩ := List.getElem?_eq_some_iff.1 hi
      have hlt' : i < (net.map Node.name).length := by rwa [List.length_map]
      have hself : (net.map Node.name)[i] = x.name := by
        rw [List.getElem_map, hn, hf n x hx]
      rw [List.map_set, ← hself, List.set_getElem_self]

/-- Changing nodes name after name, where a second change of a node does nothing more. -/
theorem foldlM_update (hd : (net.map Node.name).Nodup) (hname : ∀ n, (g n).name = n.name)
    (hidem : ∀ n, g (g n) = g n) (names : List String) :
    names.foldlM (update (.ofList (net.map Node.name).zipIdx) fun n => .ok (g n)) net =
      .ok (net.map fun n => if n.name ∈ names then g n else n) := by
  induction names generalizing net with
  | nil => exact congrArg Except.ok (by simp)
  | cons b bs ih =>
      have hstep : (net.map fun n => if n.name = b then g n else n).map Node.name =
          net.map Node.name := by
        rw [List.map_map]
        refine List.map_congr_left fun n _ => ?_
        rw [Function.comp_apply]
        split
        · exact hname n
        · rfl
      rw [List.foldlM_cons, update_of_ok hd fun _ _ _ => rfl, Outcome.ok_bind, ← hstep,
        ih (by rwa [hstep]), List.map_map]
      refine congrArg Except.ok (List.map_congr_left fun n _ => ?_)
      rw [Function.comp_apply]
      by_cases hb : n.name = b
      · rw [if_pos hb, hname, hidem, ite_self, if_pos (List.mem_cons.2 (Or.inl hb))]
      · simp only [hb, if_false, List.mem_cons, false_or]

theorem foldlM_update_of_fixed (hd : (net.map Node.name).Nodup) {names : List String}
    (hf : ∀ n ∈ net, n.name ∈ names → f n = .ok n) :
    names.foldlM (update (.ofList (net.map Node.name).zipIdx) f) net = .ok net := by
  induction names with
  | nil => rfl
  | cons b bs ih =>
      have hb := update_of_ok (g := id) hd fun n hn he => hf n hn (he ▸ List.mem_cons_self)
      rw [List.foldlM_cons, hb, Outcome.ok_bind]
      simp only [id_eq, ite_self, List.map_id']
      exact ih fun n hn hmem => hf n hn (List.mem_cons_of_mem _ hmem)

theorem foldlM_update_eq_ok (hd : (net.map Node.name).Nodup) {names : List String}
    (hf : ∀ n x, f n = .ok x → x = n)
    (h : names.foldlM (update (.ofList (net.map Node.name).zipIdx) f) net = .ok net') :
    net' = net := by
  induction names with
  | nil =>
      cases h
      rfl
  | cons b bs ih =>
      rw [List.foldlM_cons] at h
      obtain ⟨net₁, h₁, h⟩ := Outcome.bind_eq_ok.1 h
      have hok : ∀ n ∈ net, n.name = b → f n = .ok (id n) := by
        intro n hn he
        obtain ⟨x, hx⟩ := exists_of_update_eq_ok hd h₁ n hn he
        rw [hx, hf n x hx, id_eq]
      rw [update_of_ok hd hok] at h₁
      cases h₁
      simp only [id_eq, ite_self, List.map_id'] at h
      exact ih h

end

/-! ## Tops and bottoms -/

theorem eraseDups_of_nodup {xs : List String} (h : xs.Nodup) : xs.eraseDups = xs := by
  induction xs with
  | nil => rfl
  | cons x xs ih =>
      obtain ⟨hx, hxs⟩ := List.nodup_cons.1 h
      have hne : xs.filter (fun y => !y == x) = xs := by
        refine List.filter_eq_self.2 fun y hy => ?_
        rw [Bool.not_eq_true', beq_eq_false_iff_ne]
        rintro rfl
        exact hx hy
      rw [List.eraseDups_cons, hne, ih hxs]

theorem relinkTops_relinkTops (id : String) (members : List String) (n : Node) :
    relinkTops id members (relinkTops id members n) = relinkTops id members n := by
  have hfix : ∀ t ∈ (relinkTops id members n).tops, (if t ∈ members then id else t) = t := by
    intro t ht
    rw [relinkTops, List.mem_eraseDups, List.mem_map] at ht
    obtain ⟨t', -, rfl⟩ := ht
    by_cases h : t' ∈ members
    · rw [if_pos h, ite_self]
    · rw [if_neg h, if_neg h]
  have hmap : (relinkTops id members n).tops.map (fun t => if t ∈ members then id else t) =
      (relinkTops id members n).tops := by
    rw [List.map_congr_left hfix, List.map_id']
  have hnodup : (relinkTops id members n).tops.Nodup := nodup_eraseDups _
  rw [relinkTops, hmap, eraseDups_of_nodup hnodup]

theorem relinkTops_congr {id : String} {members members' : List String}
    (h : ∀ t, t ∈ members ↔ t ∈ members') (n : Node) :
    relinkTops id members n = relinkTops id members' n := by
  unfold relinkTops
  simp only [h]

variable {accessorOf : Dict String} {id : String} {members : List String}

theorem name_of_relinkBottoms {n x : Node} (h : relinkBottoms accessorOf id members n = .ok x) :
    x.name = n.name := by
  obtain ⟨bottoms, -, h⟩ := Outcome.bind_eq_ok.1 h
  cases h
  rfl

/-- Relinking leaves the names as they are, whatever was noted down. -/
theorem map_name_of_relink {s : Progress} {net : List Node} (h : s.relink = .ok net) :
    net.map Node.name = s.net.map Node.name := by
  have hacross : ∀ e (net net' : List Node), net.map Node.name = s.net.map Node.name →
      s.relinkAcross (.ofList (s.net.map Node.name).zipIdx) net e = .ok net' →
        net'.map Node.name = s.net.map Node.name := by
    intro e net net' hnames h
    obtain ⟨net₁, hproducers, hreaders⟩ := Outcome.bind_eq_ok.1 h
    have hnames₁ : net₁.map Node.name = s.net.map Node.name := by
      refine Outcome.foldlM_keeps (P := fun net => net.map Node.name = s.net.map Node.name)
        (fun _ _ _ hn hu => (map_name_of_update (fun n x hx => ?_) hu).trans hn) hnames hproducers
      cases hx
      rfl
    exact Outcome.foldlM_keeps (P := fun net => net.map Node.name = s.net.map Node.name)
      (fun _ _ _ hn hu => (map_name_of_update (fun _ _ => name_of_relinkBottoms) hu).trans hn)
      hnames₁ hreaders
  exact Outcome.foldlM_keeps (P := fun net => net.map Node.name = s.net.map Node.name) hacross rfl h

/-- A node whose bottoms are pointed at accessors reads the same names as before. -/
theorem relinkBottoms_eq_ok (ha : ∀ b a, accessorOf.get? b = some a → a = b) {n x : Node}
    (h : relinkBottoms accessorOf id members n = .ok x) : x = n := by
  obtain ⟨bottoms, hb, h⟩ := Outcome.bind_eq_ok.1 h
  cases h
  have heq : List.Forall₂ (fun a b => a = b) n.bottoms bottoms := by
    refine (Outcome.mapM_eq_ok.1 hb).imp fun b a hba => ?_
    split at hba
    · split at hba
      · next hget =>
        cases hba
        exact (ha _ _ hget).symm
      · cases hba
    · cases hba
      rfl
  rw [List.forall₂_eq_eq_eq] at heq
  rw [← heq]

theorem relinkBottoms_of_readable (ha : ∀ b a, accessorOf.get? b = some a → a = b) {n : Node}
    (h : ∀ b ∈ n.bottoms, b ∈ members → (accessorOf.get? b).isSome) :
    relinkBottoms accessorOf id members n = .ok n := by
  refine Outcome.bind_eq_ok.2 ⟨n.bottoms, Outcome.mapM_eq_ok.2 ?_, rfl⟩
  refine List.forall₂_same.2 fun b hb => ?_
  split
  · next hm =>
    obtain ⟨a, hget⟩ := Option.isSome_iff_exists.1 (h b hb hm)
    rw [hget, ha b a hget]
  · rfl

end Dataflow.Substitution

namespace Dataflow.Substitution.Context

variable {c : Context} {new : List (String × Partition)} {s : Progress}

/-! ## Boundaries -/

def relinked (c : Context) (es : List (String × Partition)) (n : Node) : Node :=
  es.foldl (fun n e => if n.name ∈ e.2.bottoms then
    relinkTops e.1 (Partition.memberNames c.graph e.1) n else n) n

/-- Relinking changes nothing but tops. -/
theorem relinked_eq (es : List (String × Partition)) (n : Node) :
    c.relinked es n = { n with tops := (c.relinked es n).tops } := by
  induction es generalizing n with
  | nil => rfl
  | cons e es ih =>
      have hr : c.relinked (e :: es) n = c.relinked es (if n.name ∈ e.2.bottoms then
          relinkTops e.1 (Partition.memberNames c.graph e.1) n else n) := rfl
      rw [hr, ih]
      split <;> rfl

@[simp] theorem relinked_name (es : List (String × Partition)) (n : Node) :
    (c.relinked es n).name = n.name := by rw [relinked_eq]

@[simp] theorem relinked_types (es : List (String × Partition)) (n : Node) :
    (c.relinked es n).types = n.types := by rw [relinked_eq]

@[simp] theorem relinked_shapes (es : List (String × Partition)) (n : Node) :
    (c.relinked es n).shapes = n.shapes := by rw [relinked_eq]

@[simp] theorem relinked_bottoms (es : List (String × Partition)) (n : Node) :
    (c.relinked es n).bottoms = n.bottoms := by rw [relinked_eq]

@[simp] theorem relinked_subgraph (es : List (String × Partition)) (n : Node) :
    (c.relinked es n).subgraph = n.subgraph := by rw [relinked_eq]

@[simp] theorem relinked_target (es : List (String × Partition)) (n : Node) :
    (c.relinked es n).target = n.target := by rw [relinked_eq]

theorem map_name_relinked (es : List (String × Partition)) (net : List Node) :
    (net.map (c.relinked es)).map Node.name = net.map Node.name := by
  rw [List.map_map]
  exact List.map_congr_left fun n _ => relinked_name es n

section

variable (h : Reached c c.graph.nodes new s)

include h

theorem Reached.accessorOf_eq {b a : String} (ha : s.accessorOf.get? b = some a) : a = b := by
  rw [h.accessorOf] at ha
  split at ha
  · exact (Option.some.inj ha).symm
  · cases ha

/-- The dropped nodes of a collapsed partition are its members. -/
theorem Reached.members_perm {e : String × Consumed} (he : e ∈ s.consumed.entries) :
    e.2.members.Perm (Partition.memberNames c.graph e.1) :=
  h.members e.1 e.2 ((Dict.mem_entries_iff h.ordered).1 he)

/-- Relinking one partition changes the tops of its outside producers. -/
theorem Reached.relinked_singleton {e : String × Consumed} (he : e ∈ s.consumed.entries)
    (net : List Node) :
    net.map (c.relinked [(e.1, e.2.partition)]) = net.map fun n =>
      if n.name ∈ e.2.partition.bottoms then relinkTops e.1 e.2.members n else n := by
  refine List.map_congr_left fun n _ => ?_
  rw [relinkTops_congr (fun t => (h.members_perm he).mem_iff) n]
  rfl

variable {net net' : List Node} {e : String × Consumed}

/-- Across one boundary the producers are changed, and the readers are only looked at. -/
theorem Reached.relinkAcross_eq (he : e ∈ s.consumed.entries) (hd : (net.map Node.name).Nodup) :
    s.relinkAcross (.ofList (net.map Node.name).zipIdx) net e =
      e.2.partition.tops.foldlM (update (.ofList (net.map Node.name).zipIdx)
        (relinkBottoms s.accessorOf e.1 e.2.members))
          (net.map (c.relinked [(e.1, e.2.partition)])) := by
  have hproducers := foldlM_update (g := relinkTops e.1 e.2.members) hd (fun _ => rfl)
    (relinkTops_relinkTops e.1 e.2.members) e.2.partition.bottoms
  unfold Progress.relinkAcross
  rw [hproducers, Outcome.ok_bind, h.relinked_singleton he]

theorem Reached.relinkAcross_eq_ok (he : e ∈ s.consumed.entries)
    (hd : (net.map Node.name).Nodup)
    (hx : s.relinkAcross (.ofList (net.map Node.name).zipIdx) net e = .ok net') :
    net' = net.map (c.relinked [(e.1, e.2.partition)]) := by
  have hnames := map_name_relinked (c := c) [(e.1, e.2.partition)] net
  rw [h.relinkAcross_eq he hd, ← hnames] at hx
  exact foldlM_update_eq_ok (by rwa [hnames])
    (fun n x hnx => relinkBottoms_eq_ok (fun _ _ => h.accessorOf_eq) hnx) hx

theorem Reached.relinkAcross_of_readable (he : e ∈ s.consumed.entries)
    (hd : (net.map Node.name).Nodup)
    (hr : ∀ n ∈ net, ∀ b ∈ n.bottoms, b ∈ Partition.memberNames c.graph e.1 →
      b ∈ c.accessorNames new) :
    s.relinkAcross (.ofList (net.map Node.name).zipIdx) net e =
      .ok (net.map (c.relinked [(e.1, e.2.partition)])) := by
  have hnames := map_name_relinked (c := c) [(e.1, e.2.partition)] net
  rw [h.relinkAcross_eq he hd, ← hnames]
  refine foldlM_update_of_fixed (by rwa [hnames]) fun n hn _ => ?_
  obtain ⟨m, hm, rfl⟩ := List.mem_map.1 hn
  refine relinkBottoms_of_readable (fun _ _ => h.accessorOf_eq) fun b hb hmem => ?_
  rw [relinked_bottoms] at hb
  rw [h.accessorOf, if_pos (hr m hm b hb ((h.members_perm he).mem_iff.1 hmem))]
  rfl

theorem Reached.foldlM_relinkAcross_eq_ok {es : List (String × Consumed)}
    (hes : ∀ e ∈ es, e ∈ s.consumed.entries) (hd : (net.map Node.name).Nodup)
    (hx : es.foldlM (s.relinkAcross (.ofList (net.map Node.name).zipIdx)) net = .ok net') :
    net' = net.map (c.relinked (es.map fun e => (e.1, e.2.partition))) := by
  induction es generalizing net with
  | nil =>
      cases hx
      exact (List.map_id _).symm
  | cons e es ih =>
      obtain ⟨he, hes⟩ := List.forall_mem_cons.1 hes
      have hnames := map_name_relinked (c := c) [(e.1, e.2.partition)] net
      rw [List.foldlM_cons] at hx
      obtain ⟨net₁, h₁, hx⟩ := Outcome.bind_eq_ok.1 hx
      rw [h.relinkAcross_eq_ok he hd h₁, ← hnames] at hx
      rw [ih hes (by rwa [hnames]) hx, List.map_map]
      rfl

theorem Reached.foldlM_relinkAcross_of_readable {es : List (String × Consumed)}
    (hes : ∀ e ∈ es, e ∈ s.consumed.entries) (hd : (net.map Node.name).Nodup)
    (hr : ∀ e ∈ es, ∀ n ∈ net, ∀ b ∈ n.bottoms, b ∈ Partition.memberNames c.graph e.1 →
      b ∈ c.accessorNames new) :
    es.foldlM (s.relinkAcross (.ofList (net.map Node.name).zipIdx)) net =
      .ok (net.map (c.relinked (es.map fun e => (e.1, e.2.partition)))) := by
  induction es generalizing net with
  | nil => exact congrArg Except.ok (List.map_id _).symm
  | cons e es ih =>
      obtain ⟨he, hes⟩ := List.forall_mem_cons.1 hes
      have hnames := map_name_relinked (c := c) [(e.1, e.2.partition)] net
      rw [List.foldlM_cons, h.relinkAcross_of_readable he hd (hr e List.mem_cons_self),
        Outcome.ok_bind, ← hnames, ih hes (by rwa [hnames]), List.map_map]
      · rfl
      · intro e' he' n hn b hb
        obtain ⟨m, hm, rfl⟩ := List.mem_map.1 hn
        rw [relinked_bottoms] at hb
        exact hr e' (List.mem_cons_of_mem _ he') m hm b hb

/-- Relinking that succeeds changes tops, and nothing else. -/
theorem Reached.relink_eq_ok (hd : (s.net.map Node.name).Nodup) (hx : s.relink = .ok net') :
    net' = s.net.map (c.relinked (Dict.ofList new).entries) := by
  rw [← h.map_consumed]
  exact h.foldlM_relinkAcross_eq_ok (fun _ he => he) hd hx

/-- Relinking succeeds where members are only read that have an accessor. -/
theorem Reached.relink_of_readable (hd : (s.net.map Node.name).Nodup)
    (hr : ∀ e ∈ new, ∀ n ∈ s.net, ∀ b ∈ n.bottoms, b ∈ Partition.memberNames c.graph e.1 →
      b ∈ c.accessorNames new) :
    s.relink = .ok (s.net.map (c.relinked (Dict.ofList new).entries)) := by
  rw [← h.map_consumed]
  refine h.foldlM_relinkAcross_of_readable (fun _ he => he) hd fun e he => ?_
  exact hr (e.1, e.2.partition) (h.get?_eq_some ((Dict.mem_entries_iff h.ordered).1 he))

end

/-! ## The whole rewrite -/

def reportOf (c : Context) (new : List (String × Partition)) : BuildReport where
  collapsed := new.map Prod.fst
  consumed := .ofList (new.map fun e => (e.1, (Partition.members c.graph e.1).length))
  accessors := c.accessorNames new

/-- The dropped nodes of a partition are as many as its members. -/
theorem Reached.report_eq (h : Reached c c.graph.nodes new s) : s.report = c.reportOf new := by
  have hconsumed : s.consumed.map (fun x => x.members.length) =
      .ofList (new.map fun e => (e.1, (Partition.members c.graph e.1).length)) := by
    refine congrArg Dict.mk (Eq.trans ?_ (Dict.entries_ofList_map
      (fun id _ => (Partition.members c.graph id).length) new).symm)
    rw [← h.map_consumed, List.map_map]
    refine List.map_congr_left fun e he => ?_
    have hlen := (h.members_perm he).length_eq
    rw [Partition.memberNames, List.length_map] at hlen
    exact congrArg (Prod.mk e.1) hlen
  rw [Progress.report, hconsumed, h.collapsed, h.accessors]
  rfl

theorem rewrite_eq_ok {name : String} {h : Graph} {r : BuildReport}
    (hr : c.rewrite name = .ok (h, r)) :
    ∃ new net, Replaced c c.graph.nodes new net ∧
      h.nodes.Perm (net.map (c.relinked (Dict.ofList new).entries)) ∧
        h.isTopologicallyOrdered = true ∧ h.name = name ∧
          h.compilerOutput = c.compilerOutput ∧ r = c.reportOf new := by
  unfold rewrite at hr
  obtain ⟨s, hs, hr⟩ := Outcome.bind_eq_ok.1 hr
  obtain ⟨net', hl, hr⟩ := Outcome.bind_eq_ok.1 hr
  obtain ⟨sorted, ht, hr⟩ := Outcome.bind_eq_ok.1 hr
  obtain ⟨g, hg, hr⟩ := Outcome.bind_eq_ok.1 hr
  cases hr
  obtain ⟨new, hnew⟩ := substitute_eq_ok hs
  obtain ⟨hn, hns, ho⟩ := Graph.ofNodes_eq_ok hg
  obtain ⟨hp, hord⟩ := Node.sortTopologically_eq_ok ht
  have hd : (s.net.map Node.name).Nodup := by
    rw [← map_name_of_relink hl, ← (hp.map Node.name).nodup_iff, ← hns]
    exact h.nodup
  refine ⟨new, s.net, hnew.replaced, ?_, ?_, hn, ho, hnew.report_eq⟩
  · rw [hns, ← hnew.relink_eq_ok hd hl]
    exact hp
  · rw [Graph.isTopologicallyOrdered, hns]
    exact hord

end Dataflow.Substitution.Context
