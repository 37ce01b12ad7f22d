import Dataflow.Substitution.Collapse
import Dataflow.Proofs.Partition.Boundary

/-!
# What a rewrite puts in place of what

The rewritten graph, up to the order of its nodes, for any partitioner: the nodes of the graph
that no partition of the target claims, and for each collapsed partition its collapsed node and
its accessors. `Replaced` says what the pass over the nodes puts in their place. `Reached` is its
invariant: it adds what the pass notes down on its way, from which the edges are relinked
afterwards.
-/

namespace Dataflow.Partition

def firstMember (nodes : List Node) (id : String) : Nat :=
  nodes.findIdx fun n => n.subgraph = some id

theorem firstMember_lt_length {nodes : List Node} {id : String} :
    firstMember nodes id < nodes.length ↔ ∃ n ∈ nodes, n.subgraph = some id := by
  simp [firstMember, List.findIdx_lt_length]

/-- The tags `ids` are carried by some of the nodes, and are listed in the order of the first
nodes that carry them. -/
structure Met (nodes : List Node) (ids : List String) : Prop where
  pairwise : ids.Pairwise fun a b => firstMember nodes a < firstMember nodes b
  carried : ∀ id ∈ ids, firstMember nodes id < nodes.length

theorem firstMember_append {nodes : List Node} {id : String}
    (h : firstMember nodes id < nodes.length) (n : Node) :
    firstMember (nodes ++ [n]) id = firstMember nodes id := by
  unfold firstMember at h ⊢
  rw [List.findIdx_append, if_pos h]

theorem firstMember_append_of_absent {nodes : List Node} {n : Node} {id : String}
    (h : ∀ m ∈ nodes, m.subgraph ≠ some id) (hn : n.subgraph = some id) :
    firstMember (nodes ++ [n]) id = nodes.length := by
  have habsent : ¬firstMember nodes id < nodes.length := by
    rw [firstMember_lt_length]
    rintro ⟨m, hm, hs⟩
    exact h m hm hs
  unfold firstMember at habsent ⊢
  rw [List.findIdx_append, if_neg habsent, List.findIdx_cons]
  simp [hn]

theorem Met.nil : Met [] [] := ⟨.nil, by simp⟩

theorem Met.nodup {nodes : List Node} {ids : List String} (h : Met nodes ids) : ids.Nodup := by
  refine h.pairwise.imp ?_
  rintro a _ hlt rfl
  exact Nat.lt_irrefl _ hlt

variable {ids : List String} {n : Node} {ns : List Node}

theorem Met.append (h : Met ns ids) (n : Node) : Met (ns ++ [n]) ids where
  pairwise := by
    refine h.pairwise.imp_of_mem ?_
    intro a b ha hb hlt
    rw [firstMember_append (h.carried a ha), firstMember_append (h.carried b hb)]
    exact hlt
  carried id hid := by
    rw [firstMember_append (h.carried id hid), List.length_append]
    exact Nat.lt_add_right _ (h.carried id hid)

/-- A further node with a tag that no node before carries. -/
theorem Met.snoc (h : Met ns ids) {id : String} (hs : n.subgraph = some id)
    (habsent : ∀ m ∈ ns, m.subgraph ≠ some id) : Met (ns ++ [n]) (ids ++ [id]) where
  pairwise := by
    rw [List.pairwise_append]
    refine ⟨(h.append n).pairwise, List.pairwise_singleton _ _, fun a ha b hb => ?_⟩
    rw [List.mem_singleton.1 hb, firstMember_append_of_absent habsent hs,
      firstMember_append (h.carried a ha)]
    exact h.carried a ha
  carried a ha := by
    rcases List.mem_append.1 ha with ha | ha
    · exact (h.append n).carried a ha
    · rw [List.mem_singleton.1 ha, firstMember_append_of_absent habsent hs]
      simp

end Dataflow.Partition

namespace Dataflow.Substitution.Context

variable {c : Context}

/-! ## Collapsed nodes and accessors -/

def collapsedNode (c : Context) (p : Partition) (attrs : Attrs) : Node :=
  { name := p.id
    types := [c.options.collapsedType]
    shapes := .tuple p.shapes
    bottoms := p.bottoms
    tops := p.outputNames
    layer := [p.id]
    attrs
    target := p.target }

theorem collapse_eq_ok {p : Partition} {x : Node} (h : c.collapse p = .ok x) :
    p.id ∉ c.graph.names ∧ p.shapes.length = p.outputNames.length ∧
      ∃ interior attrs, p.subgraph = .ok interior ∧ c.collapsedAttrs p interior = .ok attrs ∧
        x = c.collapsedNode p attrs := by
  unfold collapse at h
  dsimp only at h
  split at h
  · cases h
  · next hn =>
    rw [Graph.contains_iff_mem_names] at hn
    split at h
    · cases h
    · next hl =>
      obtain ⟨interior, hi, h⟩ := Outcome.bind_eq_ok.1 h
      obtain ⟨attrs, ha, h⟩ := Outcome.bind_eq_ok.1 h
      cases h
      exact ⟨hn, not_not.1 hl, interior, attrs, hi, ha, rfl⟩

theorem exists_layers_eq_ok {interior : Graph} {names : List String}
    (h : ∀ n ∈ names, n ∈ interior.names) : ∃ a, layers interior names = .ok a := by
  have hm : ∃ es, names.mapM (fun n => (interior.node n).map fun x => (n, Attr.strs x.layer)) =
      .ok es := by
    induction names with
    | nil => exact ⟨[], rfl⟩
    | cons n ns ih =>
        obtain ⟨es, hes⟩ := ih fun m hm => h m (List.mem_cons_of_mem _ hm)
        obtain ⟨x, hx⟩ := Graph.exists_get?_of_mem_names (h n List.mem_cons_self)
        have hn := Graph.node_eq_ok.2 (Graph.get?_eq_some_iff.1 hx)
        exact ⟨_, by rw [List.mapM_cons, hn, hes]; rfl⟩
  obtain ⟨es, hes⟩ := hm
  exact ⟨_, Outcome.bind_eq_ok.2 ⟨es, hes, rfl⟩⟩

/-- A partition that describes its tag collapses unless its name is taken. -/
theorem collapse_of_summary {id : String} {p : Partition}
    (hs : Partition.Summary c.graph id p) :
    (id ∉ c.graph.names ∧ ∃ x, c.collapse p = .ok x) ∨
      (id ∈ c.graph.names ∧ c.collapse p = .error (.invalidPartition id (.nameTaken id))) := by
  unfold collapse
  rw [hs.id_eq]
  by_cases hn : c.graph.contains id = true
  · refine Or.inr ⟨Graph.contains_iff_mem_names.1 hn, ?_⟩
    rw [if_pos hn]
    rfl
  · refine Or.inl ⟨fun h => hn (Graph.contains_iff_mem_names.2 h), ?_⟩
    rw [if_neg hn, if_neg (not_not.2 hs.length_shapes)]
    obtain ⟨interior, hi, hnames⟩ := hs.exists_subgraph
    have hin : ∀ n ∈ p.inputNames, n ∈ interior.names := by
      intro n hm
      rw [hnames, List.mem_append]
      exact Or.inl (hs.inputNames_eq ▸ hm)
    have hout : ∀ n ∈ p.outputNames, n ∈ interior.names := by
      intro n hm
      rw [hnames, List.mem_append]
      exact Or.inr (hs.outputNames_subset hm)
    obtain ⟨a, ha⟩ := exists_layers_eq_ok hin
    obtain ⟨b, hb⟩ := exists_layers_eq_ok hout
    rw [hi, Outcome.ok_bind, collapsedAttrs, ha, hb]
    dsimp only [Outcome.ok_bind]
    split
    · exact ⟨_, rfl⟩
    · exact ⟨_, rfl⟩

theorem notMem_reserved_of_validate {o : BuildOptions} (h : o.validate = .ok ()) :
    ∀ k ∈ o.extraAttrs.keys, k ∉ BuildOptions.reserved := by
  unfold BuildOptions.validate at h
  split at h
  · cases h
  · split at h
    · cases h
    · split at h
      · cases h
      · next hn => exact fun k hk => by simpa using List.find?_eq_none.1 hn k hk

/-- The attributes of a collapsed node give the names and the source operations of the inputs and
outputs of its partition, whatever the options add. -/
theorem collapsedAttrs_eq_ok {p : Partition} {interior : Graph} {attrs : Attrs}
    (ho : c.options.validate = .ok ()) (h : c.collapsedAttrs p interior = .ok attrs) :
    ∃ a b, layers interior p.inputNames = .ok a ∧ layers interior p.outputNames = .ok b ∧
      attrs.get? "input_names" = some (.strs p.inputNames) ∧
        attrs.get? "output_names" = some (.strs p.outputNames) ∧
          attrs.get? "input_layers" = some a ∧ attrs.get? "output_layers" = some b := by
  have hreserved := notMem_reserved_of_validate ho
  have hextra : ∀ k ∈ BuildOptions.reserved, k ∉ c.options.extraAttrs.entries.map Prod.fst :=
    fun k hk hm => hreserved k hm hk
  unfold collapsedAttrs at h
  obtain ⟨a, ha, h⟩ := Outcome.bind_eq_ok.1 h
  obtain ⟨b, hb, h⟩ := Outcome.bind_eq_ok.1 h
  dsimp only at h
  -- what the options add is not reserved, so it overwrites none of the four
  have hown : ∀ k x, (k, x) ∈ [("input_names", Attr.strs p.inputNames),
      ("output_names", .strs p.outputNames), ("input_layers", a), ("output_layers", b)] →
        k ∈ BuildOptions.reserved → k ≠ "rt_in_map" → k ≠ "rt_out_map" →
          attrs.get? k = some x := by
    intro k x hm hk hin hout
    have hall := Dict.get?_foldl_insert_of_notMem (hextra k hk)
      (d := .ofList [("input_names", Attr.strs p.inputNames),
        ("output_names", .strs p.outputNames), ("input_layers", a), ("output_layers", b)])
    rw [(Dict.get?_ofList (by simp)).2 hm] at hall
    split at h
    · cases h
      exact hall
    · cases h
      rw [Dict.get?_insert_of_ne _ hout, Dict.get?_insert_of_ne _ hin, hall]
  refine ⟨a, b, ha, hb, ?_, ?_, ?_, ?_⟩
  all_goals exact hown _ _ (by simp) (by simp [BuildOptions.reserved]) (by simp) (by simp)

theorem get?_collapsedAttrs {p : Partition} {interior : Graph} {attrs : Attrs}
    (ho : c.options.validate = .ok ()) (h : c.collapsedAttrs p interior = .ok attrs) :
    attrs.get? "input_names" = some (.strs p.inputNames) ∧
      attrs.get? "output_names" = some (.strs p.outputNames) := by
  obtain ⟨_, _, -, -, hin, hout, -⟩ := collapsedAttrs_eq_ok ho h
  exact ⟨hin, hout⟩

theorem mem_accessors {p : Partition} {x : Node} :
    x ∈ c.accessors p ↔ ∃ i o s, p.outputNames[i]? = some o ∧ p.shapes[i]? = some s ∧
      x = c.accessor p o s i := by
  simp only [accessors, List.mem_map, List.mem_zipIdx_iff_getElem?, List.getElem?_zip_eq_some,
    Prod.exists]
  constructor
  · rintro ⟨o, s, i, ⟨ho, hs⟩, rfl⟩
    exact ⟨i, o, s, ho, hs, rfl⟩
  · rintro ⟨i, o, s, ho, hs, rfl⟩
    exact ⟨o, s, i, ⟨ho, hs⟩, rfl⟩

theorem map_name_accessors {p : Partition} (h : p.shapes.length = p.outputNames.length) :
    (c.accessors p).map Node.name = p.outputNames := by
  rw [accessors, List.map_map]
  have he : (Node.name ∘ fun x : (String × TensorShape) × Nat =>
      c.accessor p x.1.1 x.1.2 x.2) = Prod.fst ∘ Prod.fst := rfl
  rw [he, ← List.map_map, List.zipIdx_map_fst, List.map_fst_zip (Nat.le_of_eq h.symm)]

/-! ## The pass over the nodes -/

def claims (c : Context) (n : Node) : Bool :=
  match n.subgraph.bind c.partitions.get? with
  | some p => p.target == c.options.target
  | none => false

theorem claims_iff {n : Node} :
    c.claims n = true ↔ ∃ id p, n.subgraph = some id ∧ c.partitions.get? id = some p ∧
      p.target = c.options.target := by
  unfold claims
  cases hs : n.subgraph with
  | none => simp
  | some id => cases hp : c.partitions.get? id <;> simp [hp]

def replacement (c : Context) (p : Partition) : List Node :=
  match c.collapse p with
  | .ok x => x :: c.accessors p
  | .error _ => []

theorem mem_replacement {p : Partition} {n : Node} :
    n ∈ c.replacement p ↔ ∃ x, c.collapse p = .ok x ∧ (n = x ∨ n ∈ c.accessors p) := by
  unfold replacement
  split
  · next x hx => simp [hx]
  · next e he => simp [he]

theorem map_name_replacement {p : Partition} {x : Node} (h : c.collapse p = .ok x) :
    (c.replacement p).map Node.name = p.id :: p.outputNames := by
  obtain ⟨-, hl, -, attrs, -, -, rfl⟩ := collapse_eq_ok h
  rw [replacement, h, List.map_cons, map_name_accessors hl]
  rfl

/-- What a step does with a node: it keeps a node that is not claimed, drops one whose partition
is collapsed already, and otherwise puts the whole replacement in its place. -/
theorem step_cases {s s' : Progress} {n : Node} (h : c.step s n = .ok s') :
    (c.claims n = false ∧ s' = s.keep n) ∨
      (∃ id x, n.subgraph = some id ∧ s.consumed.get? id = some x ∧ s' = s.drop id x n) ∨
        ∃ id p x, n.subgraph = some id ∧ s.consumed.get? id = none ∧
          c.partitions.get? id = some p ∧ p.target = c.options.target ∧ c.collapse p = .ok x ∧
            s' = s.collapse id p n.name x (c.accessors p) := by
  unfold step at h
  split at h
  · next hs =>
    cases h
    exact Or.inl ⟨by simp [claims, hs], rfl⟩
  · next id hs =>
    split at h
    · next x hx =>
      cases h
      exact Or.inr (Or.inl ⟨id, x, hs, hx, rfl⟩)
    · next hnone =>
      split at h
      · cases h
      · next p hp =>
        split at h
        · next ht =>
          cases h
          exact Or.inl ⟨by simpa [claims, hs, hp] using ht, rfl⟩
        · next ht =>
          obtain ⟨x, hx, rfl⟩ := Outcome.map_eq_ok.1 h
          exact Or.inr (Or.inr ⟨id, p, x, hs, hnone, hp, not_not.1 ht, hx, rfl⟩)

theorem step_eq_error {s : Progress} {n : Node} {e : GraphError} (h : c.step s n = .error e) :
    ∃ id, n.subgraph = some id ∧ (c.partitions.get? id = none ∨
      ∃ p, c.partitions.get? id = some p ∧ p.target = c.options.target ∧
        c.collapse p = .error e) := by
  unfold step at h
  split at h
  · cases h
  · next id hs =>
    split at h
    · cases h
    · split at h
      · next hp => exact ⟨id, hs, Or.inl hp⟩
      · next p hp =>
        split at h
        · cases h
        · next ht =>
          exact ⟨id, hs, Or.inr ⟨p, hp, not_not.1 ht, Outcome.map_eq_error.1 h⟩⟩

/-- The outcome `out` of the pass over `nodes`, when the partitions `new` are collapsed on the
way. -/
structure Replaced (c : Context) (nodes : List Node) (new : List (String × Partition))
    (out : List Node) : Prop where
  perm : out.Perm
    (nodes.filter (fun n => !c.claims n) ++ new.flatMap fun e => c.replacement e.2)
  met : Partition.Met nodes (new.map Prod.fst)
  reported : ∀ e ∈ new, c.partitions.get? e.1 = some e.2 ∧ e.2.target = c.options.target ∧
    ∃ x, c.collapse e.2 = .ok x
  complete : ∀ n ∈ nodes, c.claims n = true → ∃ e ∈ new, n.subgraph = some e.1

namespace Replaced

theorem nil : Replaced c [] [] [] where
  perm := .nil
  met := .nil
  reported := by simp
  complete := by simp

variable {new : List (String × Partition)} {n : Node} {ns out : List Node}

theorem nodup (h : Replaced c ns new out) : (new.map Prod.fst).Nodup := h.met.nodup

theorem claims_of_subgraph (h : Replaced c ns new out) {e : String × Partition} (he : e ∈ new)
    (hs : n.subgraph = some e.1) : c.claims n = true :=
  claims_iff.2 ⟨e.1, e.2, hs, (h.reported e he).1, (h.reported e he).2.1⟩

theorem keep (h : Replaced c ns new out) (hn : c.claims n = false) :
    Replaced c (ns ++ [n]) new (out ++ [n]) where
  perm := by
    have hf : [n].filter (fun n => !c.claims n) = [n] := List.filter_cons_of_pos (by simp [hn])
    rw [List.filter_append, hf, List.append_assoc]
    refine (h.perm.append_right [n]).trans ?_
    rw [List.append_assoc]
    exact List.perm_append_comm.append_left _
  met := h.met.append n
  reported := h.reported
  complete m hm hc := by
    rcases List.mem_append.1 hm with hm | hm
    · exact h.complete m hm hc
    · rw [List.mem_singleton.1 hm, hn] at hc
      cases hc

theorem drop (h : Replaced c ns new out) {e : String × Partition} (he : e ∈ new)
    (hs : n.subgraph = some e.1) : Replaced c (ns ++ [n]) new out where
  perm := by
    have hn := h.claims_of_subgraph he hs
    have hf : [n].filter (fun n => !c.claims n) = [] := List.filter_cons_of_neg (by simp [hn])
    rw [List.filter_append, hf, List.append_nil]
    exact h.perm
  met := h.met.append n
  reported := h.reported
  complete m hm hc := by
    rcases List.mem_append.1 hm with hm | hm
    · exact h.complete m hm hc
    · exact ⟨e, he, List.mem_singleton.1 hm ▸ hs⟩

theorem collapse (h : Replaced c ns new out) {id : String} {p : Partition} {x : Node}
    (hs : n.subgraph = some id) (hid : id ∉ new.map Prod.fst)
    (hp : c.partitions.get? id = some p) (ht : p.target = c.options.target)
    (hx : c.collapse p = .ok x) :
    Replaced c (ns ++ [n]) (new ++ [(id, p)]) (out ++ x :: c.accessors p) where
  perm := by
    have hn : c.claims n = true := claims_iff.2 ⟨id, p, hs, hp, ht⟩
    have hf : [n].filter (fun n => !c.claims n) = [] := List.filter_cons_of_neg (by simp [hn])
    have hr : [(id, p)].flatMap (fun e => c.replacement e.2) = x :: c.accessors p := by
      rw [List.flatMap_singleton, replacement, hx]
    rw [List.filter_append, hf, List.append_nil, List.flatMap_append, hr, ← List.append_assoc]
    exact h.perm.append_right _
  met := by
    rw [List.map_append]
    refine h.met.snoc hs fun m hm hsm => hid ?_
    obtain ⟨e, he, hse⟩ := h.complete m hm (claims_iff.2 ⟨id, p, hsm, hp, ht⟩)
    have hide : id = e.1 := Option.some.inj (hsm.symm.trans hse)
    exact hide ▸ List.mem_map_of_mem he
  reported e he := by
    rcases List.mem_append.1 he with he | he
    · exact h.reported e he
    · rw [List.mem_singleton.1 he]
      exact ⟨hp, ht, x, hx⟩
  complete m hm hc := by
    rcases List.mem_append.1 hm with hm | hm
    · obtain ⟨e, he, hse⟩ := h.complete m hm hc
      exact ⟨e, List.mem_append_left _ he, hse⟩
    · exact ⟨(id, p), by simp, List.mem_singleton.1 hm ▸ hs⟩

end Replaced

def accessorNames (c : Context) (new : List (String × Partition)) : List String :=
  new.flatMap fun e => (c.accessors e.2).map Node.name

theorem accessorNames_append (new : List (String × Partition)) (e : String × Partition) :
    c.accessorNames (new ++ [e]) = c.accessorNames new ++ (c.accessors e.2).map Node.name := by
  rw [accessorNames, List.flatMap_append, List.flatMap_singleton]
  rfl

theorem filter_tag_append {nodes : List Node} {n : Node} {id : String}
    (h : n.subgraph = some id) :
    (nodes ++ [n]).filter (fun n => n.subgraph == some id) =
      nodes.filter (fun n => n.subgraph == some id) ++ [n] := by
  rw [List.filter_append, List.filter_cons_of_pos (by simp [h]), List.filter_nil]

theorem filter_tag_append_of_ne {nodes : List Node} {n : Node} {id : String}
    (h : n.subgraph ≠ some id) :
    (nodes ++ [n]).filter (fun n => n.subgraph == some id) =
      nodes.filter (fun n => n.subgraph == some id) := by
  rw [List.filter_append, List.filter_cons_of_neg (by simp [h]), List.filter_nil, List.append_nil]

/-- The pass has come past `nodes` and has collapsed the partitions `new`. What it notes down is
what was collapsed, the tagged nodes of each collapsed partition, and every accessor under its own
name. -/
structure Reached (c : Context) (nodes : List Node) (new : List (String × Partition))
    (s : Progress) : Prop where
  replaced : Replaced c nodes new s.net
  partitions : s.consumed.map Consumed.partition = .ofList new
  members : ∀ id x, s.consumed.get? id = some x →
    x.members.Perm ((nodes.filter fun n => n.subgraph == some id).map Node.name)
  accessorOf : ∀ b, s.accessorOf.get? b = if b ∈ c.accessorNames new then some b else none
  collapsed : s.collapsed = new.map Prod.fst
  accessors : s.accessors = c.accessorNames new

namespace Reached

theorem nil : Reached c [] [] {} where
  replaced := .nil
  partitions := rfl
  members id x h := by cases h
  accessorOf _ := rfl
  collapsed := rfl
  accessors := rfl

variable {new : List (String × Partition)} {n : Node} {ns : List Node} {s : Progress}

theorem ordered (h : Reached c ns new s) : s.consumed.Ordered := by
  have ho := Dict.pairwise_keys (Dict.ordered_ofList new)
  rw [← h.partitions, Dict.keys, Dict.map, List.map_map] at ho
  exact List.pairwise_map.1 ho

theorem get?_eq_some (h : Reached c ns new s) {id : String} {x : Consumed}
    (hx : s.consumed.get? id = some x) : (id, x.partition) ∈ new := by
  have hp := Dict.get?_map Consumed.partition s.consumed id
  rw [h.partitions, hx] at hp
  exact (Dict.get?_ofList h.replaced.nodup).1 hp

theorem get?_eq_none (h : Reached c ns new s) {id : String} (hx : s.consumed.get? id = none) :
    id ∉ new.map Prod.fst := by
  have hp := Dict.get?_map Consumed.partition s.consumed id
  rw [h.partitions, hx, Dict.get?_ofList_eq_lookup, Option.map_none,
    Dict.lookup_eq_none_iff_notMem, List.map_reverse, List.mem_reverse] at hp
  exact hp

theorem keep (h : Reached c ns new s) (hn : c.claims n = false) :
    Reached c (ns ++ [n]) new (s.keep n) where
  replaced := h.replaced.keep hn
  partitions := h.partitions
  members id x hx := by
    have hs : n.subgraph ≠ some id := by
      intro hs
      rw [h.replaced.claims_of_subgraph (h.get?_eq_some hx) hs] at hn
      cases hn
    rw [filter_tag_append_of_ne hs]
    exact h.members id x hx
  accessorOf := h.accessorOf
  collapsed := h.collapsed
  accessors := h.accessors

theorem drop (h : Reached c ns new s) (hname : n.name ∉ ns.map Node.name) {id : String}
    {x : Consumed} (hs : n.subgraph = some id) (hx : s.consumed.get? id = some x) :
    Reached c (ns ++ [n]) new (s.drop id x n) where
  replaced := h.replaced.drop (h.get?_eq_some hx) hs
  partitions := by
    have hp := Dict.get?_map Consumed.partition s.consumed id
    rw [hx, h.partitions] at hp
    rw [Progress.drop, Dict.map_insert, h.partitions, Dict.insert_of_get? (Dict.ordered_ofList _) hp]
  members id' y hy := by
    have hm := h.members id x hx
    by_cases hid : id' = id
    · subst hid
      rw [Progress.drop, Dict.get?_insert_self] at hy
      cases hy
      have hnew : n.name ∉ x.members := fun hin => by
        obtain ⟨m, hmem, he⟩ := List.mem_map.1 (hm.mem_iff.1 hin)
        exact hname (he ▸ List.mem_map_of_mem (List.mem_filter.1 hmem).1)
      rw [List.insert_of_not_mem hnew, filter_tag_append hs, List.map_append]
      exact (hm.cons _).trans (List.perm_append_singleton _ _).symm
    · rw [Progress.drop, Dict.get?_insert_of_ne _ hid] at hy
      have hne : n.subgraph ≠ some id' := by
        intro hs'
        exact hid (Option.some.inj (hs'.symm.trans hs))
      rw [filter_tag_append_of_ne hne]
      exact h.members id' y hy
  accessorOf := h.accessorOf
  collapsed := h.collapsed
  accessors := h.accessors

theorem collapse (h : Reached c ns new s) {id : String} {p : Partition} {x : Node}
    (hs : n.subgraph = some id) (hid : s.consumed.get? id = none)
    (hp : c.partitions.get? id = some p) (ht : p.target = c.options.target)
    (hx : c.collapse p = .ok x) :
    Reached c (ns ++ [n]) (new ++ [(id, p)]) (s.collapse id p n.name x (c.accessors p)) where
  replaced := h.replaced.collapse hs (h.get?_eq_none hid) hp ht hx
  partitions := by
    rw [Progress.collapse, Dict.map_insert, h.partitions, Dict.ofList_append_singleton]
  members id' y hy := by
    by_cases he : id' = id
    · subst he
      rw [Progress.collapse, Dict.get?_insert_self] at hy
      cases hy
      have habsent : ns.filter (fun n => n.subgraph == some id') = [] := by
        rw [List.filter_eq_nil_iff]
        intro m hm hsm
        rw [beq_iff_eq] at hsm
        obtain ⟨e, hemem, hse⟩ := h.replaced.complete m hm (claims_iff.2 ⟨id', p, hsm, hp, ht⟩)
        rw [Option.some.inj (hsm.symm.trans hse)] at hid
        exact h.get?_eq_none hid (List.mem_map_of_mem hemem)
      rw [filter_tag_append hs, habsent]
      exact .refl _
    · rw [Progress.collapse, Dict.get?_insert_of_ne _ he] at hy
      have hne : n.subgraph ≠ some id' := by
        intro hs'
        exact he (Option.some.inj (hs'.symm.trans hs))
      rw [filter_tag_append_of_ne hne]
      exact h.members id' y hy
  accessorOf b := by
    have hnames := map_name_accessors (c := c) (collapse_eq_ok hx).2.1
    rw [Progress.collapse, hnames, Dict.get?_foldl_insert_self, h.accessorOf,
      accessorNames_append, hnames]
    simp only [List.mem_append]
    split
    · next hb => rw [if_pos (Or.inr hb)]
    · next hb => simp only [hb, or_false]
  collapsed := by rw [Progress.collapse, h.collapsed, List.map_append, List.map_singleton]
  accessors := by rw [Progress.collapse, h.accessors, accessorNames_append]

/-- One step comes past one more node. -/
theorem step (h : Reached c ns new s) (hname : n.name ∉ ns.map Node.name) {s' : Progress}
    (hs : c.step s n = .ok s') : ∃ new', Reached c (ns ++ [n]) new' s' := by
  rcases step_cases hs with ⟨hn, rfl⟩ | ⟨id, x, hsub, hx, rfl⟩ |
    ⟨id, p, x, hsub, hid, hp, ht, hx, rfl⟩
  · exact ⟨new, h.keep hn⟩
  · exact ⟨new, h.drop hname hsub hx⟩
  · exact ⟨new ++ [(id, p)], h.collapse hsub hid hp ht hx⟩

theorem map_consumed (h : Reached c ns new s) :
    s.consumed.entries.map (fun e => (e.1, e.2.partition)) = (Dict.ofList new).entries :=
  congrArg Dict.entries h.partitions

end Reached

theorem substitute_eq_ok {s : Progress} (h : c.substitute = .ok s) :
    ∃ new, Reached c c.graph.nodes new s := by
  have hrun : ∀ (rest seen : List Node) (new : List (String × Partition)) (s₀ : Progress),
      Reached c seen new s₀ → ((seen ++ rest).map Node.name).Nodup →
        rest.foldlM c.step s₀ = .ok s → ∃ new', Reached c (seen ++ rest) new' s := by
    intro rest
    induction rest with
    | nil =>
        intro seen new s₀ hr _ h
        cases h
        exact ⟨new, by rwa [List.append_nil]⟩
    | cons n ns ih =>
        intro seen new s₀ hr hd h
        rw [List.foldlM_cons] at h
        obtain ⟨s₁, hs, h⟩ := Outcome.bind_eq_ok.1 h
        have hname : n.name ∉ seen.map Node.name := by
          rw [List.map_append, List.nodup_append] at hd
          exact fun hm => hd.2.2 n.name hm n.name (by simp) rfl
        obtain ⟨new₁, hr₁⟩ := hr.step hname hs
        rw [List.append_cons] at hd ⊢
        exact ih (seen ++ [n]) new₁ s₁ hr₁ hd h
  exact hrun c.graph.nodes [] [] {} .nil c.graph.nodup h

/-- A pass that fails does so for the tag of one of the nodes. -/
theorem substitute_eq_error {e : GraphError} (h : c.substitute = .error e) :
    ∃ n ∈ c.graph.nodes, ∃ id, n.subgraph = some id ∧ (c.partitions.get? id = none ∨
      ∃ p, c.partitions.get? id = some p ∧ p.target = c.options.target ∧
        c.collapse p = .error e) := by
  unfold substitute at h
  generalize ({} : Progress) = s at h
  generalize c.graph.nodes = nodes at h ⊢
  induction nodes generalizing s with
  | nil => cases h
  | cons n ns ih =>
      rw [List.foldlM_cons] at h
      rcases Outcome.bind_eq_error.1 h with h | ⟨s₁, -, h⟩
      · exact ⟨n, List.mem_cons_self, step_eq_error h⟩
      · obtain ⟨m, hm, hr⟩ := ih s₁ h
        exact ⟨m, List.mem_cons_of_mem _ hm, hr⟩

end Dataflow.Substitution.Context
