import Dataflow.Proofs.Graph.Linearization
import Dataflow.Proofs.Graph.Validity

/-!
# Building drafts

What becomes of the nodes of a draft. Their bottoms decide everything: the tops they came with are
replaced by the readers that the bottoms of all nodes say there are. So a draft is refused for its
names, its bottoms or a cycle, in this order, and otherwise gives a valid graph, which holds the
nodes in the least of their linearizations.

Validation finds no edge that is recorded on one of its ends only. The readers of a node are found
by going through the bottoms of all nodes, so tops and bottoms record the same relation `Feeds`, and
sorting afterwards does not change which nodes there are.
-/

namespace Dataflow.Draft

open Node

variable {nodes : List Node} {n m : Node} {order : List Nat} {i t : String}

/-! ## Consumers -/

/-- The names of the nodes that read `name`, each once. -/
def consumers (nodes : List Node) (name : String) : List String :=
  (nodes.filter fun n => name ∈ n.bottoms).map Node.name

theorem mem_consumers : t ∈ consumers nodes i ↔ Feeds nodes i t := by
  rw [consumers, Feeds, List.mem_map]
  constructor
  · rintro ⟨c, hc, rfl⟩
    obtain ⟨hc, hb⟩ := List.mem_filter.1 hc
    exact ⟨c, hc, rfl, of_decide_eq_true hb⟩
  · rintro ⟨c, hc, rfl, hb⟩
    exact ⟨c, List.mem_filter.2 ⟨hc, decide_eq_true hb⟩, rfl⟩

theorem consumers_sublist (nodes : List Node) (i : String) :
    (consumers nodes i).Sublist (nodes.map Node.name) :=
  List.filter_sublist.map Node.name

/-- The node `m` is the node `n` of the list, except that it lists as its tops the nodes that read
it, each once and in the order of the list. -/
structure Linked (nodes : List Node) (n m : Node) : Prop where
  eq_with_tops : m = { n with tops := m.tops }
  nodup_tops : m.tops.Nodup
  tops_sublist : m.tops.Sublist (nodes.map Node.name)
  mem_tops : ∀ t, t ∈ m.tops ↔ Feeds nodes n.name t

theorem linked_consumers (hd : (nodes.map Node.name).Nodup) (n : Node) :
    Linked nodes n { n with tops := consumers nodes n.name } where
  eq_with_tops := rfl
  nodup_tops := (consumers_sublist nodes n.name).nodup hd
  tops_sublist := consumers_sublist nodes n.name
  mem_tops _ := mem_consumers

/-! ## Linking -/

def linked (nodes : List Node) : List Node :=
  nodes.map fun n => { n with tops := consumers nodes n.name }

def pushNew (ts : List String) (t : String) : List String := if t ∈ ts then ts else ts ++ [t]

/-- Adding tops along edges collects, at each position, the ends of the edges that start there. -/
theorem getElem?_foldl_addTop (es : List (Nat × String)) (ms : List Node) (p : Nat) :
    (es.foldl addTop ms)[p]? = ms[p]?.map fun m =>
      { m with tops := ((es.filter (·.1 = p)).map Prod.snd).foldl pushNew m.tops } := by
  induction es generalizing ms with
  | nil => simp
  | cons e es ih =>
      rw [List.foldl_cons, ih, addTop, List.getElem?_modify]
      by_cases hp : e.1 = p
      · cases hm : ms[p]? with
        | none => simp [hp]
        | some m =>
            by_cases ht : e.2 ∈ m.tops
            · simp [hp, pushNew, ht]
            · simp [hp, pushNew, ht]
      · simp [hp]

theorem foldl_pushNew_replicate {ts : List String} {t : String} (ht : t ∉ ts) (k : Nat) :
    (List.replicate k t).foldl pushNew ts = if k = 0 then ts else ts ++ [t] := by
  have hmem : ∀ (k : Nat) {us : List String}, t ∈ us →
      (List.replicate k t).foldl pushNew us = us := by
    intro k us hu
    induction k with
    | zero => rfl
    | succ k ih => rw [List.replicate_succ, List.foldl_cons, pushNew, if_pos hu, ih]
  cases k with
  | zero => rfl
  | succ k =>
      rw [List.replicate_succ, List.foldl_cons, pushNew, if_neg ht, if_neg (Nat.succ_ne_zero k)]
      exact hmem k (by simp)

/-- Pushing the name of each node as often as it lists `i` leaves the readers of `i`. -/
theorem foldl_pushNew_consumers (i : String) {ts : List String} (hd : (nodes.map Node.name).Nodup)
    (ht : ∀ n ∈ nodes, n.name ∉ ts) :
    (nodes.flatMap fun n => List.replicate (n.bottoms.count i) n.name).foldl pushNew ts =
      ts ++ consumers nodes i := by
  induction nodes generalizing ts with
  | nil => simp [consumers]
  | cons n ns ih =>
      rw [List.map_cons, List.nodup_cons] at hd
      rw [List.forall_mem_cons] at ht
      rw [List.flatMap_cons, List.foldl_append, foldl_pushNew_replicate ht.1]
      by_cases hb : i ∈ n.bottoms
      · have hcount : n.bottoms.count i ≠ 0 := Nat.ne_of_gt (List.count_pos_iff.2 hb)
        rw [if_neg hcount, ih hd.2, consumers, consumers, List.filter_cons_of_pos (by simpa using hb)]
        · simp
        · intro m hm hmem
          rcases List.mem_append.1 hmem with hmem | hmem
          · exact ht.2 m hm hmem
          · rw [List.mem_singleton] at hmem
            exact hd.1 (hmem ▸ List.mem_map_of_mem hm)
      · rw [if_pos (List.count_eq_zero_of_not_mem hb), ih hd.2 ht.2, consumers, consumers,
          List.filter_cons_of_neg (by simpa using hb)]

/-- The edges from a position lead to the readers of its node, as often as they list it. -/
theorem filter_edgesAmong (hd : (nodes.map Node.name).Nodup)
    (hc : ∀ m ∈ nodes, ∀ b ∈ m.bottoms, b ∈ nodes.map Node.name) {p : Nat}
    (hn : nodes[p]? = some n) :
    ((edgesAmong (nodes.map Node.name) (nodes.map fun m => (m, m.name))).filter (·.1 = p)).map
        Prod.snd =
      nodes.flatMap fun m => List.replicate (m.bottoms.count n.name) m.name := by
  rw [edgesAmong, List.flatMap_map, List.filter_flatMap, List.map_flatMap]
  refine List.flatMap_congr fun m hm => ?_
  have hcount : (m.bottoms.filter fun b => (nodes.map Node.name).idxOf b = p).length =
      m.bottoms.count n.name := by
    rw [← List.countP_eq_length_filter, List.count]
    refine List.countP_congr fun b hb => ?_
    simp [idxOf_eq_iff hd hn (hc m hm b hb)]
  rw [List.filter_map, List.map_map, ← hcount, ← List.map_const']
  rfl

def cleared (nodes : List Node) : List Node := nodes.map fun n => { n with tops := [] }

theorem map_name_cleared (nodes : List Node) :
    (cleared nodes).map Node.name = nodes.map Node.name := by
  rw [cleared, List.map_map]
  rfl

theorem consumers_cleared (nodes : List Node) (i : String) :
    consumers (cleared nodes) i = consumers nodes i := by
  rw [consumers, consumers, cleared, List.filter_map, List.map_map]
  rfl

theorem link_eq (nodes : List Node) : link nodes = do
    let position ← positions (cleared nodes)
    let found ← edges position ((cleared nodes).map fun n => (n, n.name))
    return found.foldl addTop (cleared nodes) := rfl

/-- Linking gives each node of a list with distinct names and resolvable bottoms its readers. -/
theorem link_of_closed (hd : (nodes.map Node.name).Nodup)
    (hc : ∀ n ∈ nodes, ∀ b ∈ n.bottoms, b ∈ nodes.map Node.name) :
    link nodes = .ok (linked nodes) := by
  rw [← map_name_cleared] at hd
  have hc' : ∀ n ∈ cleared nodes, ∀ b ∈ n.bottoms, b ∈ (cleared nodes).map Node.name := by
    rw [map_name_cleared, cleared, List.forall_mem_map]
    exact hc
  obtain ⟨index, hi⟩ := exists_positions hd
  have hc'' : ∀ x ∈ (cleared nodes).map fun n => (n, n.name), ∀ b ∈ x.1.bottoms,
      b ∈ (cleared nodes).map Node.name := List.forall_mem_map.2 hc'
  rw [link_eq, hi, Outcome.ok_bind, edges_of_closed hi hc'', Outcome.ok_bind, Outcome.pure_eq]
  congr 1
  refine List.ext_getElem? fun p => ?_
  rw [getElem?_foldl_addTop]
  cases hm : nodes[p]? with
  | none => simp [cleared, linked, hm]
  | some m =>
      have hn : (cleared nodes)[p]? = some { m with tops := [] } := by
        rw [cleared, List.getElem?_map, hm]
        rfl
      rw [hn, Option.map_some, filter_edgesAmong hd hc' hn,
        foldl_pushNew_consumers _ hd fun _ _ => List.not_mem_nil, consumers_cleared, linked,
        List.getElem?_map, hm]
      rfl

theorem link_of_duplicate (hd : ¬(nodes.map Node.name).Nodup) :
    ∃ i, link nodes = .error (.duplicateNode i) ∧ 1 < (nodes.map Node.name).count i := by
  rw [← map_name_cleared] at hd ⊢
  obtain ⟨i, h, hi⟩ := positions_of_duplicate hd
  exact ⟨i, by rw [link_eq, h, Outcome.error_bind], hi⟩

theorem link_of_dangling (hd : (nodes.map Node.name).Nodup)
    (hopen : ∃ n ∈ nodes, ∃ b ∈ n.bottoms, b ∉ nodes.map Node.name) :
    ∃ n ∈ nodes, ∃ b ∈ n.bottoms, b ∉ nodes.map Node.name ∧
      link nodes = .error (.danglingBottom n.name b) := by
  rw [← map_name_cleared] at hd hopen ⊢
  obtain ⟨index, hi⟩ := exists_positions hd
  obtain ⟨n, hn, b, hb, hout⟩ := hopen
  have hx : ({ n with tops := [] }, n.name) ∈ (cleared nodes).map fun n => (n, n.name) :=
    List.mem_map_of_mem (List.mem_map_of_mem hn)
  obtain ⟨x, hx, b', hb', hout', he⟩ := edges_of_dangling hi ⟨_, hx, b, hb, hout⟩
  obtain ⟨m', hm', rfl⟩ := List.mem_map.1 hx
  obtain ⟨m, hm, rfl⟩ := List.mem_map.1 hm'
  exact ⟨m, hm, b', hb', hout', by rw [link_eq, hi, Outcome.ok_bind, he, Outcome.error_bind]⟩

/-! ## Linked lists -/

theorem mem_linked : m ∈ linked nodes ↔
    ∃ n ∈ nodes, { n with tops := consumers nodes n.name } = m :=
  List.mem_map

theorem map_name_linked (nodes : List Node) : (linked nodes).map Node.name = nodes.map Node.name := by
  rw [linked, List.map_map]
  rfl

theorem closed_linked_iff : (∀ n ∈ linked nodes, ∀ b ∈ n.bottoms, b ∈ (linked nodes).map Node.name) ↔
    ∀ n ∈ nodes, ∀ b ∈ n.bottoms, b ∈ nodes.map Node.name := by
  rw [map_name_linked, linked, List.forall_mem_map]

theorem feeds_linked (nodes : List Node) : Feeds (linked nodes) = Feeds nodes := by
  apply feeds_map
  · exact fun _ => rfl
  · exact fun _ => rfl

theorem cyclic_linked_iff : Cyclic (linked nodes) ↔ Cyclic nodes := by
  rw [Cyclic, feeds_linked, Cyclic]

theorem getElem?_linked_eq_some {k : Nat} : (linked nodes)[k]? = some m ↔
    ∃ n, nodes[k]? = some n ∧ { n with tops := consumers nodes n.name } = m := by
  rw [linked, List.getElem?_map, Option.map_eq_some_iff]

theorem linearizes_linked_iff : Linearizes (linked nodes) order ↔ Linearizes nodes order := by
  have hlength : (linked nodes).length = nodes.length := List.length_map _
  constructor
  · intro h
    refine ⟨hlength ▸ h.perm, fun i j n m hi hj hb => ?_⟩
    exact h.after i j _ _ (getElem?_linked_eq_some.2 ⟨n, hi, rfl⟩)
      (getElem?_linked_eq_some.2 ⟨m, hj, rfl⟩) hb
  · intro h
    refine ⟨hlength.symm ▸ h.perm, fun i j n' m' hi' hj' hb => ?_⟩
    obtain ⟨n, hi, rfl⟩ := getElem?_linked_eq_some.1 hi'
    obtain ⟨m, hj, rfl⟩ := getElem?_linked_eq_some.1 hj'
    exact h.after i j n m hi hj hb

theorem mirrored_linked (hc : ∀ n ∈ nodes, ∀ b ∈ n.bottoms, b ∈ nodes.map Node.name) :
    Mirrored (linked nodes) where
  top_of_bottom := by
    intro n' hn' b hb
    obtain ⟨n, hn, rfl⟩ := mem_linked.1 hn'
    obtain ⟨p, hp, rfl⟩ := List.mem_map.1 (hc n hn b hb)
    exact ⟨_, mem_linked.2 ⟨p, hp, rfl⟩, rfl, mem_consumers.2 ⟨n, hn, rfl, hb⟩⟩
  bottom_of_top := by
    intro n' hn' t ht
    obtain ⟨n, -, rfl⟩ := mem_linked.1 hn'
    obtain ⟨c, hc, rfl, hb⟩ := mem_consumers.1 ht
    exact ⟨_, mem_linked.2 ⟨c, hc, rfl⟩, rfl, hb⟩

/-! ## Builds -/

variable {d : Draft}

theorem build_of_arranged (hl : link d.nodes = .ok (linked d.nodes)) {xs : List (Node × Nat)}
    (h : Arranged (linked d.nodes) xs) :
    ∃ g, d.build = .ok g ∧ g.validate = .ok () ∧ g.name = d.name ∧
      g.compilerOutput = d.compilerOutput ∧ g.nodes = xs.map Prod.fst := by
  have hs := sortTopologically_of_arranged h
  obtain ⟨hp, ho⟩ := sortTopologically_eq_ok hs
  have hd' : ((xs.map Prod.fst).map Node.name).Nodup := (hp.map Node.name).nodup_iff.2 h.nodup
  have hc' : ∀ n ∈ xs.map Prod.fst, ∀ b ∈ n.bottoms, b ∈ (xs.map Prod.fst).map Node.name := by
    intro n hn b hb
    exact (mem_of_orderedAfter ho hn hb).resolve_left List.not_mem_nil
  obtain ⟨g, hg⟩ := Graph.exists_ofNodes_eq_ok d.name d.compilerOutput hd' hc'
  obtain ⟨hname, hnodes, hout⟩ := Graph.ofNodes_eq_ok hg
  have hv : g.validate = .ok () := by
    apply Graph.validate_of_ordered
    · rw [hnodes]
      exact (mirrored_linked (closed_linked_iff.1 h.closed)).perm hp.symm
    · rw [Graph.isTopologicallyOrdered, hnodes]
      exact ho
  refine ⟨g, ?_, hv, hname, hout, hnodes⟩
  rw [build, hl, Outcome.ok_bind, hs, Outcome.ok_bind, hg, Outcome.ok_bind, hv]
  rfl

theorem linked_of_arranged {xs : List (Node × Nat)} (h : Arranged (linked nodes) xs) :
    List.Forall₂ (fun k m => ∃ n, nodes[k]? = some n ∧ Linked nodes n m)
      (xs.map Prod.snd) (xs.map Prod.fst) := by
  have hd : (nodes.map Node.name).Nodup := by
    rw [← map_name_linked]
    exact h.nodup
  rw [List.forall₂_map_left_iff, List.forall₂_map_right_iff, List.forall₂_same]
  rintro ⟨m, k⟩ hx
  obtain ⟨n, hn, rfl⟩ := getElem?_linked_eq_some.1 ((mem_iff_of_perm h.perm).1 hx)
  exact ⟨n, hn, linked_consumers hd n⟩

/-- The graph `g` is valid and holds the nodes of the draft, linked and in the order `order`, which
is the least of their linearizations. -/
structure Arranges (d : Draft) (order : List Nat) (g : Graph) : Prop where
  valid : g.validate = .ok ()
  name_eq : g.name = d.name
  compilerOutput_eq : g.compilerOutput = d.compilerOutput
  linearizes : Linearizes d.nodes order
  least : ∀ other, Linearizes d.nodes other → order = other ∨ List.Lex (· < ·) order other
  linked : List.Forall₂ (fun k m => ∃ n, d.nodes[k]? = some n ∧ Linked d.nodes n m) order g.nodes

theorem build_of_duplicate (hd : ¬(d.nodes.map Node.name).Nodup) :
    ∃ i, d.build = .error (.duplicateNode i) ∧ 1 < (d.nodes.map Node.name).count i := by
  obtain ⟨i, h, hi⟩ := link_of_duplicate hd
  exact ⟨i, by rw [build, h, Outcome.error_bind], hi⟩

theorem build_of_dangling (hd : (d.nodes.map Node.name).Nodup)
    (hopen : ∃ n ∈ d.nodes, ∃ b ∈ n.bottoms, b ∉ d.nodes.map Node.name) :
    ∃ n ∈ d.nodes, ∃ b ∈ n.bottoms, b ∉ d.nodes.map Node.name ∧
      d.build = .error (.danglingBottom n.name b) := by
  obtain ⟨n, hn, b, hb, hout, h⟩ := link_of_dangling hd hopen
  exact ⟨n, hn, b, hb, hout, by rw [build, h, Outcome.error_bind]⟩

section

variable (hd : (d.nodes.map Node.name).Nodup)
  (hc : ∀ n ∈ d.nodes, ∀ b ∈ n.bottoms, b ∈ d.nodes.map Node.name)

include hd hc

/-- Linking neither makes nor breaks a cycle. -/
theorem arranged_linked_or_cyclic :
    (¬Cyclic d.nodes ∧ ∃ xs, Arranged (linked d.nodes) xs) ∨
      (Cyclic d.nodes ∧ ∃ i, topologicalOrder (linked d.nodes) = .error (.cycle i)) := by
  rw [← cyclic_linked_iff]
  rw [← map_name_linked] at hd
  exact arranged_or_cyclic hd (closed_linked_iff.2 hc)

theorem build_of_cyclic (hcyc : Cyclic d.nodes) : ∃ i, d.build = .error (.cycle i) := by
  rcases arranged_linked_or_cyclic hd hc with ⟨hacyc, -⟩ | ⟨-, i, h⟩
  · exact absurd hcyc hacyc
  · refine ⟨i, ?_⟩
    rw [build, link_of_closed hd hc, Outcome.ok_bind, sortTopologically_eq_error.2 h,
      Outcome.error_bind]

theorem exists_build_of_acyclic (hacyc : ¬Cyclic d.nodes) :
    ∃ g order, d.build = .ok g ∧ d.Arranges order g := by
  rcases arranged_linked_or_cyclic hd hc with ⟨-, xs, h⟩ | ⟨hcyc, -⟩
  · obtain ⟨g, hg, hv, hname, hout, hnodes⟩ := build_of_arranged (link_of_closed hd hc) h
    obtain ⟨hlin, hleast⟩ := h.least
    refine ⟨g, xs.map Prod.snd, hg, hv, hname, hout, linearizes_linked_iff.1 hlin, ?_, ?_⟩
    · intro other hother
      exact hleast other (linearizes_linked_iff.2 hother)
    · rw [hnodes]
      exact linked_of_arranged h
  · exact absurd hcyc hacyc

end

/-- A draft with a repeated name is refused for it, else one with a bottom that is none of its nodes
for that, else one with a cycle for this. Every other draft gives a valid graph, with its nodes in
the least of their linearizations, each the same but for the readers that it lists as its tops. -/
theorem build_cases_of_bottoms (d : Draft) :
    (¬(d.nodes.map Node.name).Nodup → ∃ i, d.build = .error (.duplicateNode i) ∧
      1 < (d.nodes.map Node.name).count i) ∧
    ((d.nodes.map Node.name).Nodup → (∃ n ∈ d.nodes, ∃ b ∈ n.bottoms, b ∉ d.nodes.map Node.name) →
      ∃ n ∈ d.nodes, ∃ b ∈ n.bottoms, b ∉ d.nodes.map Node.name ∧
        d.build = .error (.danglingBottom n.name b)) ∧
    ((d.nodes.map Node.name).Nodup → (∀ n ∈ d.nodes, ∀ b ∈ n.bottoms, b ∈ d.nodes.map Node.name) →
      (Cyclic d.nodes → ∃ i, d.build = .error (.cycle i)) ∧
      (¬Cyclic d.nodes → ∃ g order, d.build = .ok g ∧ d.Arranges order g)) := by
  refine ⟨build_of_duplicate, build_of_dangling, fun hd hc => ⟨?_, ?_⟩⟩
  · exact build_of_cyclic hd hc
  · exact exists_build_of_acyclic hd hc

def stale : Draft where
  name := "stale"
  nodes := unsorted.map fun n => { n with tops := ["a", n.name, "nobody"] }

theorem build_stale :
    (stale.nodes.map Node.name).Nodup ∧
      (∀ n ∈ stale.nodes, ∀ b ∈ n.bottoms, b ∈ stale.nodes.map Node.name) ∧
        ¬Cyclic stale.nodes ∧ ∃ g order, stale.build = .ok g ∧ stale.Arranges order g ∧
          g.nodes.map (fun n => (n.name, n.tops)) =
            [("c", ["d"]), ("b", ["d"]), ("d", []), ("a", [])] := by
  have hd : (stale.nodes.map Node.name).Nodup := by decide
  have hc : ∀ n ∈ stale.nodes, ∀ b ∈ n.bottoms, b ∈ stale.nodes.map Node.name := by decide
  have hok : stale.build.map (fun g => g.nodes.map fun n => (n.name, n.tops)) =
      .ok [("c", ["d"]), ("b", ["d"]), ("d", []), ("a", [])] := by decide +kernel
  have hacyc : ¬Cyclic stale.nodes := by
    intro hcyc
    obtain ⟨i, h⟩ := ((build_cases_of_bottoms stale).2.2 hd hc).1 hcyc
    rw [h] at hok
    cases hok
  obtain ⟨g, order, hg, harranges⟩ := ((build_cases_of_bottoms stale).2.2 hd hc).2 hacyc
  rw [hg] at hok
  exact ⟨hd, hc, hacyc, g, order, hg, harranges, Except.ok.inj hok⟩

end Dataflow.Draft
