import Dataflow.Proofs.Graph.Linearization

/-!
# Checks

Two questions that a graph answers about its own nodes. `validate` asks whether every edge is
recorded on both of its ends and no chain of edges comes back to its start. A node is only asked
about the two lists that it carries itself. This is enough: an edge that is recorded on one end
stands in a list of that end, and the node there is asked about it. So nothing unmirrored gets past
the check, and what a refusal names is really wrong with the nodes.

`isTopologicallyOrdered` asks whether the nodes stand in topological order, in one pass over the
list. Sorting gives the same answer with more work. It leaves the nodes in their places for as long
as they stand in order, so a list is in order exactly if sorting returns the positions as they are.
-/

namespace Dataflow

namespace Node

variable {nodes : List Node}

/-! ## Edges -/

/-- Edges are recorded on both ends if no top lies outside of the list and any two of its nodes, be
they the same, agree on whether one of them reads the other. -/
theorem mirrored_iff (hd : (nodes.map name).Nodup)
    (hc : ∀ n ∈ nodes, ∀ b ∈ n.bottoms, b ∈ nodes.map name) :
    Mirrored nodes ↔ (∀ n ∈ nodes, ∀ t ∈ n.tops, t ∈ nodes.map name) ∧
      ∀ a ∈ nodes, ∀ b ∈ nodes, b.name ∈ a.bottoms ↔ a.name ∈ b.tops := by
  constructor
  · intro h
    refine ⟨?_, ?_⟩
    · intro n hn t ht
      obtain ⟨c, hc, rfl, -⟩ := h.bottom_of_top n hn t ht
      exact List.mem_map_of_mem hc
    · intro a ha b hb
      constructor
      · intro hread
        obtain ⟨p, hp, hname, ht⟩ := h.top_of_bottom a ha b.name hread
        rwa [eq_of_name_eq hd hp hb hname] at ht
      · intro htop
        obtain ⟨c, hc, hname, hread⟩ := h.bottom_of_top b hb a.name htop
        rwa [eq_of_name_eq hd hc ha hname] at hread
  · rintro ⟨htops, hboth⟩
    refine ⟨?_, ?_⟩
    · intro n hn b hb
      obtain ⟨p, hp, rfl⟩ := List.mem_map.1 (hc n hn b hb)
      exact ⟨p, hp, rfl, (hboth n hn p hp).1 hb⟩
    · intro n hn t ht
      obtain ⟨c, hc, rfl⟩ := List.mem_map.1 (htops n hn t ht)
      exact ⟨c, hc, rfl, (hboth c hc n hn).2 ht⟩

def Flawed (nodes : List Node) : GraphError → Prop
  | .inconsistentEdge producer consumer .missingTop =>
    ∃ p ∈ nodes, ∃ c ∈ nodes, p.name = producer ∧ c.name = consumer ∧
      producer ∈ c.bottoms ∧ consumer ∉ p.tops
  | .inconsistentEdge producer consumer .missingBottom =>
    ∃ p ∈ nodes, ∃ c ∈ nodes, p.name = producer ∧ c.name = consumer ∧
      consumer ∈ p.tops ∧ producer ∉ c.bottoms
  | .notFound top => ∃ n ∈ nodes, top ∈ n.tops ∧ top ∉ nodes.map name
  | .cycle _ => Cyclic nodes
  | .duplicateNode _ | .danglingBottom .. | .unknownPartition .. | .invalidPartition .. => False

/-! ## Places -/

/-- As far as a list is in order, and no further, its nodes are placed as they stand. -/
theorem take_arrange_eq_take_iff (placed : List String) (rest : List (Node × Nat)) (k : Nat) :
    (arrange placed rest).1.take k = rest.take k ↔
      Graph.orderedAfter placed ((rest.take k).map Prod.fst) = true := by
  induction k generalizing placed rest with
  | zero => simp [Graph.orderedAfter]
  | succ k ih =>
      cases rest with
      | nil =>
          rw [arrange_of_none rfl]
          simp [Graph.orderedAfter]
      | cons x rest =>
          rw [List.take_succ_cons, List.map_cons, Graph.orderedAfter, Bool.and_eq_true]
          by_cases hx : x.1.ready placed = true
          · rw [arrange_of_some (pick_cons_of_pos hx), List.take_succ_cons, List.cons.injEq, ← ih]
            simp [hx]
          · -- the node placed first is ready, so it is not the one in front
            refine ⟨fun h => ?_, fun h => absurd h.1 hx⟩
            cases hp : pick (fun y => y.1.ready placed) (x :: rest) with
            | none =>
                rw [arrange_of_none hp] at h
                cases h
            | some r =>
                obtain ⟨y, rest'⟩ := r
                have hy := pick_satisfies hp
                rw [arrange_of_some hp, List.take_succ_cons, List.cons.injEq] at h
                rw [h.1] at hy
                exact absurd hy hx

theorem eq_of_map_snd_eq {xs ys : List (Node × Nat)} (hx : ∀ x ∈ xs, nodes[x.2]? = some x.1)
    (hy : ∀ y ∈ ys, nodes[y.2]? = some y.1) (h : xs.map Prod.snd = ys.map Prod.snd) : xs = ys := by
  have hpair : ∀ zs : List (Node × Nat), (∀ z ∈ zs, nodes[z.2]? = some z.1) →
      zs.map some = (zs.map Prod.snd).map fun i => nodes[i]?.map fun n => (n, i) := by
    intro zs hz
    rw [List.map_map]
    refine List.map_congr_left fun z hm => ?_
    rw [Function.comp_apply, hz z hm]
    rfl
  have hsome : xs.map some = ys.map some := by rw [hpair xs hx, hpair ys hy, h]
  exact List.map_injective_iff.2 (Option.some_injective _) hsome

section

variable (hd : (nodes.map name).Nodup)
  (hc : ∀ n ∈ nodes, ∀ b ∈ n.bottoms, b ∈ nodes.map name)

include hd hc

/-- Counting down yields the first `k` positions in order exactly if the first `k` nodes stand in
order. -/
theorem take_drain_eq_range_iff {k : Nat} (hk : k ≤ nodes.length) :
    ((Frontier.start (degrees nodes).indegree).drain (degrees nodes).consumers).1.take k =
        List.range k ↔
      Graph.orderedAfter [] (nodes.take k) = true := by
  cases ha : arrange [] nodes.zipIdx with
  | mk order stuck =>
      have hplace := take_arrange_eq_take_iff [] nodes.zipIdx k
      have hrange : (nodes.zipIdx.take k).map Prod.snd = List.range k := by
        rw [List.map_take, map_snd_zipIdx, List.take_range, Nat.min_eq_left hk]
      have hat : ∀ x ∈ nodes.zipIdx, nodes[x.2]? = some x.1 := fun _ =>
        List.mem_zipIdx_iff_getElem?.1
      have hsub : ∀ x ∈ order, x ∈ nodes.zipIdx := fun x hx =>
        (arrange_perm ha).mem_iff.2 (List.mem_append_left _ hx)
      rw [List.map_take, List.zipIdx_map_fst, ha] at hplace
      rw [drain_start hd hc ha, ← hplace, ← List.map_take, ← hrange]
      refine ⟨fun h => ?_, fun h => by rw [h]⟩
      exact eq_of_map_snd_eq (fun x hx => hat x (hsub x (List.mem_of_mem_take hx)))
        (fun x hx => hat x (List.mem_of_mem_take hx)) h

theorem topologicalOrder_eq_range_iff :
    topologicalOrder nodes = .ok (List.range nodes.length) ↔
      ((Frontier.start (degrees nodes).indegree).drain (degrees nodes).consumers).1.take
        nodes.length = List.range nodes.length := by
  cases ha : arrange [] nodes.zipIdx with
  | mk order stuck =>
      have hlength := (arrange_perm ha).length_eq
      rw [List.length_zipIdx, List.length_append] at hlength
      obtain ⟨hok, herror⟩ := topologicalOrder_of_arrange hd hc ha
      rw [drain_start hd hc ha, List.take_of_length_le (by rw [List.length_map]; omega)]
      by_cases hs : stuck = []
      · rw [hok hs, Except.ok.injEq]
      · obtain ⟨index, -, he⟩ := herror hs
        have hpos := List.length_pos_iff.2 hs
        rw [he]
        refine ⟨nofun, fun h => ?_⟩
        have hl := congrArg List.length h
        rw [List.length_map, List.length_range] at hl
        omega

end

end Node

namespace Graph

variable {g : Graph} {n : Node} {e : GraphError}

/-! ## Validation -/

theorem flawed_of_checkBottoms (hn : n ∈ g.nodes) (h : g.checkBottoms n = .error e) :
    Node.Flawed g.nodes e := by
  obtain ⟨b, hb, he⟩ := Outcome.exists_of_forM_eq_error h
  obtain ⟨p, hp⟩ := exists_get?_of_mem_names (g.closed n hn b hb)
  rw [hp] at he
  obtain ⟨hp, hname⟩ := get?_eq_some_iff.1 hp
  dsimp only at he
  split at he
  · cases he
  · next ht =>
    cases he
    exact ⟨p, hp, n, hn, hname, rfl, hb, ht⟩

theorem flawed_of_checkTops (hn : n ∈ g.nodes) (h : g.checkTops n = .error e) :
    Node.Flawed g.nodes e := by
  obtain ⟨t, ht, he⟩ := Outcome.exists_of_forM_eq_error h
  cases hc : g.get? t with
  | none =>
      rw [hc] at he
      cases he
      refine ⟨n, hn, ht, fun hm => ?_⟩
      obtain ⟨c, hc'⟩ := exists_get?_of_mem_names hm
      rw [hc] at hc'
      cases hc'
  | some c =>
      rw [hc] at he
      obtain ⟨hc, hname⟩ := get?_eq_some_iff.1 hc
      dsimp only at he
      split at he
      · cases he
      · next hb =>
        cases he
        exact ⟨n, hn, c, hc, rfl, hname, ht, hb⟩

theorem flawed_of_topologicalOrder (h : Node.topologicalOrder g.nodes = .error e) :
    Node.Flawed g.nodes e := by
  rcases Node.arranged_or_cyclic g.nodup g.closed with ⟨-, xs, hx⟩ | ⟨hcyc, i, hi⟩
  · rw [Node.topologicalOrder_eq_ok.2 ⟨xs, hx, rfl⟩] at h
    cases h
  · rw [hi] at h
    cases h
    exact hcyc

/-- A graph is valid exactly if its tops are nodes of the graph, one of its nodes is a bottom of
another where that one is a top of it, and no chain of edges comes back to its start. Where it is
not valid, the refusal is true of its nodes. -/
theorem validate_iff_reciprocal (g : Graph) :
    (g.validate = .ok () ↔
      (∀ n ∈ g.nodes, ∀ t ∈ n.tops, t ∈ g.names) ∧
        (∀ a ∈ g.nodes, ∀ b ∈ g.nodes, b.name ∈ a.bottoms ↔ a.name ∈ b.tops) ∧
          ¬Node.Cyclic g.nodes) ∧
    ∀ e, g.validate = .error e → Node.Flawed g.nodes e := by
  constructor
  · rw [validate_eq_ok_iff_acyclic, Node.mirrored_iff g.nodup g.closed, and_assoc]
    rfl
  · intro e h
    rw [validate, Outcome.bind_eq_error] at h
    rcases h with h | ⟨⟨⟩, -, h⟩
    · obtain ⟨n, hn, h⟩ := Outcome.exists_of_forM_eq_error h
      rcases Outcome.bind_eq_error.1 h with h | ⟨⟨⟩, -, h⟩
      · exact flawed_of_checkBottoms hn h
      · exact flawed_of_checkTops hn h
    · exact flawed_of_topologicalOrder (Outcome.map_eq_error.1 h)

/-- The node "a" lists a reader that does not read it. -/
example : (do
    let g ← ofNodes "halved" [{ name := "a", types := [], shapes := .tensor ⟨[]⟩, tops := ["b"] },
      { name := "b", types := [], shapes := .tensor ⟨[]⟩ }] none
    g.validate) = .error (.inconsistentEdge "a" "b" .missingBottom) := by
  decide +kernel

/-! ## Order -/

/-- The nodes stand in order exactly if sorting returns the positions from the first to the last. -/
theorem isTopologicallyOrdered_iff_range (g : Graph) : g.isTopologicallyOrdered = true ↔
    Node.topologicalOrder g.nodes = .ok (List.range g.nodes.length) := by
  rw [Node.topologicalOrder_eq_range_iff g.nodup g.closed,
    Node.take_drain_eq_range_iff g.nodup g.closed le_rfl, List.take_length]
  rfl

end Graph

end Dataflow
