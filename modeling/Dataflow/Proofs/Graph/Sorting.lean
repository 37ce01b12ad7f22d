import Dataflow.Proofs.Graph.Countdown

/-!
# Sorting

What sorting makes of a list of nodes. A repeated name is refused, then a bottom that names no node
of the list, then a list in which counting down stops early. Every other list is put into the order
in which `arrange` places its nodes, and taking the nodes out of their slots in that order loses
none of them.
-/

namespace Dataflow.Node

variable {nodes : List Node}

/-- Nodes with distinct names and resolvable bottoms, all of which are placed, in the order `xs`. -/
structure Arranged (nodes : List Node) (xs : List (Node × Nat)) : Prop where
  nodup : (nodes.map name).Nodup
  closed : ∀ n ∈ nodes, ∀ b ∈ n.bottoms, b ∈ nodes.map name
  arrange_eq : arrange [] nodes.zipIdx = (xs, [])

variable {xs order stuck : List (Node × Nat)}

theorem Arranged.perm (h : Arranged nodes xs) : xs.Perm nodes.zipIdx := by
  have hp := arrange_perm h.arrange_eq
  rw [List.append_nil] at hp
  exact hp.symm

theorem Arranged.ordered (h : Arranged nodes xs) :
    Graph.orderedAfter [] (xs.map Prod.fst) = true :=
  orderedAfter_arrange h.arrange_eq

theorem arranged_of_ordered (hd : (nodes.map name).Nodup)
    (ho : Graph.orderedAfter [] nodes = true) : Arranged nodes nodes.zipIdx where
  nodup := hd
  closed n hn b hb := by simpa using mem_of_orderedAfter ho hn hb
  arrange_eq := arrange_of_orderedAfter (by rwa [List.zipIdx_map_fst])

/-! ## Positions in order -/

theorem topologicalOrder_of_duplicate (hd : ¬(nodes.map name).Nodup) :
    ∃ i, topologicalOrder nodes = .error (.duplicateNode i) ∧ 1 < (nodes.map name).count i := by
  obtain ⟨i, h, hi⟩ := positions_of_duplicate hd
  exact ⟨i, by rw [topologicalOrder, h, Outcome.error_bind], hi⟩

theorem topologicalOrder_of_dangling (hd : (nodes.map name).Nodup)
    (hc : ∃ n ∈ nodes, ∃ b ∈ n.bottoms, b ∉ nodes.map name) :
    ∃ n ∈ nodes, ∃ b ∈ n.bottoms, b ∉ nodes.map name ∧
      topologicalOrder nodes = .error (.danglingBottom n.name b) := by
  obtain ⟨index, h⟩ := exists_positions hd
  have hmem : ∀ n, n ∈ nodes ↔ ∃ x ∈ nodes.zipIdx, x.1 = n := by
    intro n
    rw [← List.mem_map, List.zipIdx_map_fst]
  obtain ⟨n, hn, b, hb, hout⟩ := hc
  obtain ⟨x, hx, rfl⟩ := (hmem n).1 hn
  obtain ⟨y, hy, b', hb', hout', he⟩ := edges_of_dangling h ⟨x, hx, b, hb, hout⟩
  refine ⟨y.1, (hmem y.1).2 ⟨y, hy, rfl⟩, b', hb', hout', ?_⟩
  rw [topologicalOrder, h, Outcome.ok_bind, he, Outcome.error_bind]

section

variable (hd : (nodes.map name).Nodup)
  (hc : ∀ n ∈ nodes, ∀ b ∈ n.bottoms, b ∈ nodes.map name)

include hd hc

theorem drain_start (ha : arrange [] nodes.zipIdx = (order, stuck)) :
    (Frontier.start (degrees nodes).indegree).drain (degrees nodes).consumers =
      (order.map Prod.snd, nodes.map (waiting (order.map fun x => x.1.name).reverse)) := by
  have hall : unplaced nodes [] = nodes.zipIdx := by
    rw [unplaced, List.filter_eq_self]
    simp
  rw [(tracks_start nodes).drain hd hc (hall ▸ ha), List.append_nil]

theorem exists_edges : ∃ index found, positions nodes = .ok index ∧
    edges index nodes.zipIdx = .ok found ∧ .ofEdges nodes.length found = degrees nodes := by
  obtain ⟨index, h⟩ := exists_positions hd
  have hc' : ∀ x ∈ nodes.zipIdx, ∀ b ∈ x.1.bottoms, b ∈ nodes.map name := by
    intro x hx
    apply hc
    rw [← List.zipIdx_map_fst 0 nodes]
    exact List.mem_map_of_mem hx
  exact ⟨index, _, h, edges_of_closed h hc', rfl⟩

theorem topologicalOrder_of_arrange (ha : arrange [] nodes.zipIdx = (order, stuck)) :
    (stuck = [] → topologicalOrder nodes = .ok (order.map Prod.snd)) ∧
      (stuck ≠ [] → ∃ index, positions nodes = .ok index ∧
        topologicalOrder nodes = .error (.cycle (onCycle nodes index
          (nodes.map (waiting (order.map fun x => x.1.name).reverse))))) := by
  obtain ⟨index, found, hi, he, hf⟩ := exists_edges hd hc
  have hlength := (arrange_perm ha).length_eq
  rw [List.length_zipIdx, List.length_append] at hlength
  rw [topologicalOrder, hi, Outcome.ok_bind, he, Outcome.ok_bind, hf]
  dsimp only
  rw [drain_start hd hc ha]
  dsimp only
  rw [List.length_map]
  constructor
  · rintro rfl
    rw [List.length_nil, Nat.add_zero] at hlength
    rw [if_neg (not_not_intro hlength.symm)]
    rfl
  · intro hs
    have hpos := List.length_pos_iff.2 hs
    rw [if_pos (by omega)]
    exact ⟨index, rfl, rfl⟩

end

theorem topologicalOrder_eq_ok {positions : List Nat} : topologicalOrder nodes = .ok positions ↔
    ∃ xs, Arranged nodes xs ∧ xs.map Prod.snd = positions := by
  constructor
  · intro h
    have hd : (nodes.map name).Nodup := by
      by_contra hd
      obtain ⟨i, he, -⟩ := topologicalOrder_of_duplicate hd
      rw [h] at he
      cases he
    have hc : ∀ n ∈ nodes, ∀ b ∈ n.bottoms, b ∈ nodes.map name := by
      intro n hn b hb
      by_contra hout
      obtain ⟨m, -, b', -, -, he⟩ := topologicalOrder_of_dangling hd ⟨n, hn, b, hb, hout⟩
      rw [h] at he
      cases he
    cases ha : arrange [] nodes.zipIdx with
    | mk order stuck =>
        obtain ⟨hok, herror⟩ := topologicalOrder_of_arrange hd hc ha
        by_cases hs : stuck = []
        · rw [hok hs] at h
          cases h
          exact ⟨order, ⟨hd, hc, hs ▸ ha⟩, rfl⟩
        · obtain ⟨index, -, he⟩ := herror hs
          rw [h] at he
          cases he
  · rintro ⟨xs, hx, rfl⟩
    exact (topologicalOrder_of_arrange hx.nodup hx.closed hx.arrange_eq).1 rfl

/-- Nodes with distinct names and resolvable bottoms are arranged or refused for a cycle. -/
theorem topologicalOrder_of_closed (hd : (nodes.map name).Nodup)
    (hc : ∀ n ∈ nodes, ∀ b ∈ n.bottoms, b ∈ nodes.map name) :
    (∃ xs, Arranged nodes xs) ∨ ∃ n, topologicalOrder nodes = .error (.cycle n) := by
  cases ha : arrange [] nodes.zipIdx with
  | mk order stuck =>
      by_cases hs : stuck = []
      · exact Or.inl ⟨order, hd, hc, hs ▸ ha⟩
      · obtain ⟨index, -, h⟩ := (topologicalOrder_of_arrange hd hc ha).2 hs
        exact Or.inr ⟨_, h⟩

/-! ## Nodes in order -/

/-- Each slot is emptied once, and what was in it is returned. -/
theorem takeSlots_map_snd {slots : List (Option Node)} (hd : (xs.map Prod.snd).Nodup)
    (h : ∀ x ∈ xs, slots[x.2]? = some (some x.1)) :
    takeSlots slots (xs.map Prod.snd) = xs.map Prod.fst := by
  induction xs generalizing slots with
  | nil => rfl
  | cons x xs ih =>
      rw [List.map_cons, List.nodup_cons] at hd
      rw [List.forall_mem_cons] at h
      rw [List.map_cons, takeSlots, h.1, List.map_cons]
      dsimp only
      rw [ih hd.2]
      intro y hy
      have hne : x.2 ≠ y.2 := fun he => hd.1 (he ▸ List.mem_map_of_mem hy)
      rw [List.getElem?_set_ne hne, h.2 y hy]

theorem sortTopologically_of_arranged (h : Arranged nodes xs) :
    sortTopologically nodes = .ok (xs.map Prod.fst) := by
  have hd : (xs.map Prod.snd).Nodup := by
    rw [(h.perm.map Prod.snd).nodup_iff, List.zipIdx_map_snd]
    exact List.nodup_range'
  have hslots : ∀ x ∈ xs, (nodes.map some)[x.2]? = some (some x.1) := by
    intro x hx
    have hn := List.mem_zipIdx_iff_getElem?.1 (h.perm.mem_iff.1 hx)
    rw [List.getElem?_map, hn]
    rfl
  rw [sortTopologically, topologicalOrder_eq_ok.2 ⟨xs, h, rfl⟩, Outcome.ok_bind,
    takeSlots_map_snd hd hslots]
  rfl

theorem exists_arranged_of_sortTopologically {sorted : List Node}
    (h : sortTopologically nodes = .ok sorted) :
    ∃ xs, Arranged nodes xs ∧ xs.map Prod.fst = sorted := by
  obtain ⟨order, ho, -⟩ := Outcome.bind_eq_ok.1 h
  obtain ⟨xs, hx, rfl⟩ := topologicalOrder_eq_ok.1 ho
  rw [sortTopologically_of_arranged hx] at h
  cases h
  exact ⟨xs, hx, rfl⟩

theorem sortTopologically_eq_error {e : GraphError} :
    sortTopologically nodes = .error e ↔ topologicalOrder nodes = .error e := by
  rw [sortTopologically, Outcome.bind_eq_error]
  refine or_iff_left ?_
  rintro ⟨order, -, h⟩
  cases h

theorem sortTopologically_eq_ok {sorted : List Node} (h : sortTopologically nodes = .ok sorted) :
    sorted.Perm nodes ∧ Graph.orderedAfter [] sorted = true := by
  obtain ⟨xs, hx, rfl⟩ := exists_arranged_of_sortTopologically h
  have hp := hx.perm.map Prod.fst
  rw [List.zipIdx_map_fst] at hp
  exact ⟨hp, hx.ordered⟩

theorem sortTopologically_cases (hd : (nodes.map name).Nodup)
    (hc : ∀ n ∈ nodes, ∀ b ∈ n.bottoms, b ∈ nodes.map name) :
    (∃ sorted, sortTopologically nodes = .ok sorted) ∨
      ∃ n, sortTopologically nodes = .error (.cycle n) := by
  rcases topologicalOrder_of_closed hd hc with ⟨xs, h⟩ | ⟨n, h⟩
  · exact Or.inl ⟨_, sortTopologically_of_arranged h⟩
  · exact Or.inr ⟨n, sortTopologically_eq_error.2 h⟩

theorem exists_topologicalOrder_iff : (∃ order, topologicalOrder nodes = .ok order) ↔
    ∃ sorted, sortTopologically nodes = .ok sorted := by
  constructor
  · rintro ⟨order, h⟩
    obtain ⟨xs, hx, -⟩ := topologicalOrder_eq_ok.1 h
    exact ⟨_, sortTopologically_of_arranged hx⟩
  · rintro ⟨sorted, h⟩
    obtain ⟨xs, hx, -⟩ := exists_arranged_of_sortTopologically h
    exact ⟨_, topologicalOrder_eq_ok.2 ⟨xs, hx, rfl⟩⟩

theorem sortTopologically_of_ordered (hd : (nodes.map name).Nodup)
    (ho : Graph.orderedAfter [] nodes = true) : sortTopologically nodes = .ok nodes := by
  rw [sortTopologically_of_arranged (arranged_of_ordered hd ho), List.zipIdx_map_fst]

end Dataflow.Node
