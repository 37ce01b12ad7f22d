import Dataflow.Proofs.Graph.Cycles

/-!
# The search for a cycle

A list of nodes that cannot be sorted is refused with the name of a node, and that node is really on
a cycle: some chain of edges leads from it back to itself. When counting down stops, the positions
that keep a count are those that were not placed, and each of them reads another one. The search
starts at the first of them and goes from each to the first one it reads that keeps a count as well,
so it never ends at a dead end; it ends at the first position that comes up a second time. Going on
from there the search had come back, so this node feeds itself, while the nodes passed before it may
only hang off the cycle.

Each round visits one position, and the last round visits none, so there is at most one round more
than there are nodes.
-/

namespace Dataflow.Node

open Relation

variable {nodes : List Node} {index : Dict Nat} {counts : List Nat} {visited : List Bool}
  {current next : Nat} {n : Node} {i : String} {k : Nat}

/-! ## Counts that are left -/

theorem stuckProducer?_eq_some (hi : positions nodes = .ok index)
    (h : stuckProducer? index counts n = some next) :
    0 < counts.getD next 0 ∧ ∃ m, nodes[next]? = some m ∧ m.name ∈ n.bottoms := by
  obtain ⟨b, hb, hp⟩ := List.mem_filterMap.1 (List.mem_of_find?_eq_some h)
  obtain ⟨m, hm, rfl⟩ := (get?_eq_some_iff hi).1 hp
  exact ⟨by simpa using List.find?_some h, m, hm, hb⟩

theorem exists_stuckProducer (hi : positions nodes = .ok index) {p : Nat} {m : Node}
    (hm : nodes[p]? = some m) (hb : m.name ∈ n.bottoms) (hp : 0 < counts.getD p 0) :
    ∃ next, stuckProducer? index counts n = some next := by
  rw [← Option.isSome_iff_exists, stuckProducer?, List.find?_isSome]
  refine ⟨p, List.mem_filterMap.2 ⟨m.name, hb, ?_⟩, decide_eq_true hp⟩
  exact (get?_eq_some_iff hi).2 ⟨m, hm, rfl⟩

theorem pos_waiting_iff (placed : List String) (hn : nodes[current]? = some n) :
    0 < (nodes.map (waiting placed)).getD current 0 ↔ ∃ b ∈ n.bottoms, b ∉ placed := by
  rw [List.getD_eq_getElem?_getD, List.getElem?_map, hn, Option.map_some, Option.getD_some,
    waiting, List.countP_pos_iff]
  simp only [decide_eq_true_iff]

section

variable {xs stuck : List (Node × Nat)} (ha : arrange [] nodes.zipIdx = (xs, stuck))

include ha

theorem getElem?_of_mem_arranged : ∀ x ∈ xs, nodes[x.2]? = some x.1 := fun _ hx =>
  List.mem_zipIdx_iff_getElem?.1 ((arrange_perm ha).mem_iff.2 (List.mem_append_left _ hx))

theorem mem_placed_iff (hd : (nodes.map name).Nodup) (hn : nodes[current]? = some n) :
    current ∈ xs.map Prod.snd ↔ n.name ∈ xs.map fun x => x.1.name := by
  rw [List.mem_map, List.mem_map]
  constructor
  · rintro ⟨x, hx, rfl⟩
    have hat := (getElem?_of_mem_arranged ha x hx).symm.trans hn
    exact ⟨x, hx, congrArg name (Option.some.inj hat)⟩
  · rintro ⟨x, hx, he⟩
    exact ⟨x, hx, eq_of_getElem? hd (getElem?_of_mem_arranged ha x hx) hn he⟩

/-- The nodes that are not placed are those that read one that is not placed. -/
theorem notMem_placed_iff (hn : nodes[current]? = some n) :
    current ∉ xs.map Prod.snd ↔ ∃ b ∈ n.bottoms, b ∉ xs.map fun x => x.1.name := by
  constructor
  · intro hout
    have hx : (n, current) ∈ nodes.zipIdx := List.mem_zipIdx_iff_getElem?.2 hn
    rw [(arrange_perm ha).mem_iff, List.mem_append] at hx
    have hstuck := hx.resolve_left fun hx => hout (List.mem_map_of_mem hx)
    obtain ⟨b, hb, -, hb'⟩ := exists_unplaced_of_stuck ha hstuck
    exact ⟨b, hb, hb'⟩
  · rintro ⟨b, hb, hout⟩ hmem
    obtain ⟨x, hx, rfl⟩ := List.mem_map.1 hmem
    obtain rfl : x.1 = n := Option.some.inj ((getElem?_of_mem_arranged ha x hx).symm.trans hn)
    have hin := mem_of_orderedAfter (orderedAfter_arrange ha) (List.mem_map_of_mem hx) hb
    rw [List.map_map] at hin
    exact hout (hin.resolve_left List.not_mem_nil)

end

section

variable (hd : (nodes.map name).Nodup)
  (hc : ∀ n ∈ nodes, ∀ b ∈ n.bottoms, b ∈ nodes.map name)

include hd hc

/-- The positions that keep a count are those that are not placed, and they are the positions that
read one that is not placed. -/
theorem pos_count_iff {order : List Nat}
    (h : (Frontier.start (degrees nodes).indegree).drain (degrees nodes).consumers =
      (order, counts)) (hn : nodes[current]? = some n) :
    (0 < counts.getD current 0 ↔ current ∉ order) ∧
      (0 < counts.getD current 0 ↔
        ∃ p m, nodes[p]? = some m ∧ m.name ∈ n.bottoms ∧ p ∉ order) := by
  cases ha : arrange [] nodes.zipIdx with
  | mk xs stuck =>
      rw [drain_start hd hc ha] at h
      cases h
      have hcount := pos_waiting_iff (xs.map fun x => x.1.name).reverse hn
      simp only [List.mem_reverse] at hcount
      rw [notMem_placed_iff ha hn, hcount]
      refine ⟨Iff.rfl, ?_⟩
      constructor
      · rintro ⟨b, hb, hout⟩
        obtain ⟨m, hm, rfl⟩ := List.mem_map.1 (hc n (List.mem_of_getElem? hn) b hb)
        obtain ⟨p, hp⟩ := List.mem_iff_getElem?.1 hm
        exact ⟨p, m, hp, hb, fun h => hout ((mem_placed_iff ha hd hp).1 h)⟩
      · rintro ⟨p, m, hp, hb, hout⟩
        exact ⟨m.name, hb, fun h => hout ((mem_placed_iff ha hd hp).2 h)⟩

theorem exists_producer_of_pos {order : List Nat}
    (h : (Frontier.start (degrees nodes).indegree).drain (degrees nodes).consumers =
      (order, counts)) (hi : positions nodes = .ok index) (hn : nodes[current]? = some n)
    (hpos : 0 < counts.getD current 0) : ∃ next, stuckProducer? index counts n = some next := by
  obtain ⟨p, m, hm, hb, hout⟩ := (pos_count_iff hd hc h hn).2.1 hpos
  exact exists_stuckProducer hi hm hb ((pos_count_iff hd hc h hm).1.2 hout)

theorem exists_first_of_stuck {xs stuck : List (Node × Nat)} {order : List Nat}
    (ha : arrange [] nodes.zipIdx = (xs, stuck))
    (h : (Frontier.start (degrees nodes).indegree).drain (degrees nodes).consumers =
      (order, counts)) (hs : stuck ≠ []) :
    ∃ first, counts.findIdx? (0 < ·) = some first ∧ 0 < counts.getD first 0 := by
  obtain ⟨x, hx⟩ := List.exists_mem_of_ne_nil stuck hs
  have hp := arrange_perm ha
  have hout : x.2 ∉ order := by
    rw [drain_start hd hc ha] at h
    cases h
    have hnodup := (hp.map Prod.snd).nodup_iff.1 (by
      rw [List.zipIdx_map_snd]
      exact List.nodup_range')
    rw [List.map_append, List.nodup_append] at hnodup
    exact fun hmem => hnodup.2.2 _ hmem _ (List.mem_map_of_mem hx) rfl
  have hn := List.mem_zipIdx_iff_getElem?.1 (hp.mem_iff.2 (List.mem_append_right _ hx))
  have hpos := (pos_count_iff hd hc h hn).1.2 hout
  have hsome : (counts.findIdx? (0 < ·)).isSome := by
    rw [List.findIdx?_isSome, List.any_eq_true]
    rw [List.getD_eq_getElem?_getD] at hpos
    cases hcount : counts[x.2]? with
    | none => simp [hcount] at hpos
    | some c =>
        rw [hcount, Option.getD_some] at hpos
        exact ⟨c, List.mem_of_getElem? hcount, decide_eq_true hpos⟩
  obtain ⟨first, hfirst⟩ := Option.isSome_iff_exists.1 hsome
  obtain ⟨hlt, he, -⟩ := List.findIdx?_eq_some_iff_getElem.1 hfirst
  refine ⟨first, hfirst, ?_⟩
  rw [List.getD_eq_getElem?_getD, List.getElem?_eq_getElem hlt]
  exact of_decide_eq_true he

end

/-! ## Rounds -/

/-- With the visited positions marked, the search from `current` ends after `k` rounds with the
answer `i`. -/
inductive Search (nodes : List Node) (index : Dict Nat) (counts : List Nat) :
    List Bool → Nat → Nat → String → Prop
  /-- The position has been visited before. -/
  | passed {visited : List Bool} {current : Nat} {n : Node} (hn : nodes[current]? = some n)
      (hv : visited[current]? = some true) : Search nodes index counts visited current 1 n.name
  /-- Nothing that the node reads keeps a count. -/
  | blocked {visited : List Bool} {current : Nat} {n : Node} (hn : nodes[current]? = some n)
      (hv : visited[current]? = some false) (h : stuckProducer? index counts n = none) :
      Search nodes index counts visited current 1 n.name
  /-- The search goes on at the first position that the node reads and that keeps a count. -/
  | round {visited : List Bool} {current next : Nat} {n : Node} {k : Nat} {i : String}
      (hn : nodes[current]? = some n) (hv : visited[current]? = some false)
      (h : stuckProducer? index counts n = some next)
      (hs : Search nodes index counts (visited.set current true) next k i) :
      Search nodes index counts visited current (k + 1) i

theorem revisited_of_passed (hn : nodes[current]? = some n) (hv : visited[current]? = some true) :
    revisited nodes index counts visited current = n.name := by
  rw [revisited, hn]
  dsimp only
  split
  · next h => rw [hv] at h; cases h
  · rfl

theorem revisited_of_fresh (hn : nodes[current]? = some n) (hv : visited[current]? = some false) :
    revisited nodes index counts visited current =
      match stuckProducer? index counts n with
      | none => n.name
      | some next => revisited nodes index counts (visited.set current true) next := by
  rw [revisited, hn]
  dsimp only
  split
  · rfl
  · next h => exact absurd hv h

/-- The search ends, after at most one round more than there are positions to visit. -/
theorem exists_search (hi : positions nodes = .ok index) (hlen : visited.length = nodes.length)
    (hn : nodes[current]? = some n) :
    ∃ k ≤ visited.count false + 1,
      Search nodes index counts visited current k
        (revisited nodes index counts visited current) := by
  induction visited, current using revisited.induct nodes index counts generalizing n with
  | case1 visited current hnone =>
      rw [hnone] at hn
      cases hn
  | case2 visited current n' hn' hv hnone =>
      refine ⟨1, Nat.le_add_left 1 _, ?_⟩
      rw [revisited_of_fresh hn' hv, hnone]
      exact .blocked hn' hv hnone
  | case3 visited current n' hn' hv next hsome ih =>
      obtain ⟨-, m, hm, -⟩ := stuckProducer?_eq_some hi hsome
      obtain ⟨k, hk, hs⟩ := ih (by rw [List.length_set, hlen]) hm
      refine ⟨k + 1, by rw [count_set_true hv]; omega, ?_⟩
      rw [revisited_of_fresh hn' hv, hsome]
      exact .round hn' hv hsome hs
  | case4 visited current n' hn' hv =>
      have hlt : current < visited.length := by
        rw [hlen]
        exact (List.getElem?_eq_some_iff.1 hn).1
      have htrue : visited[current]? = some true := by
        cases hb : visited[current] with
        | true => rw [List.getElem?_eq_getElem hlt, hb]
        | false => exact absurd (by rw [List.getElem?_eq_getElem hlt, hb]) hv
      refine ⟨1, Nat.le_add_left 1 _, ?_⟩
      rw [revisited_of_passed hn' htrue]
      exact .passed hn' htrue

/-! ## Chains of stuck nodes -/

/-- Every visited node is fed, through a chain, by the node the search stands at. So the one at which
it ends feeds itself. -/
theorem transGen_of_search (hi : positions nodes = .ok index)
    (hfed : ∀ j m, nodes[j]? = some m → 0 < counts.getD j 0 →
      ∃ p, stuckProducer? index counts m = some p)
    (hs : Search nodes index counts visited current k i) (hpos : 0 < counts.getD current 0)
    (hpassed : ∀ n, nodes[current]? = some n → ∀ (j : Nat) (m : Node), nodes[j]? = some m →
      visited[j]? = some true → TransGen (Feeds nodes) n.name m.name) :
    i ∈ nodes.map name ∧ TransGen (Feeds nodes) i i := by
  induction hs with
  | @passed visited current n hn hv =>
      exact ⟨List.mem_map_of_mem (List.mem_of_getElem? hn), hpassed n hn current n hn hv⟩
  | @blocked visited current n hn hv h =>
      obtain ⟨p, hsome⟩ := hfed current n hn hpos
      rw [h] at hsome
      cases hsome
  | @round visited current next n k i hn hv h hs ih =>
      obtain ⟨hnext, p, hp, hb⟩ := stuckProducer?_eq_some hi h
      have hstep : Feeds nodes p.name n.name := ⟨n, List.mem_of_getElem? hn, rfl, hb⟩
      refine ih hnext fun p' hp' j m hm hvisited => ?_
      obtain rfl : p' = p := Option.some.inj (hp'.symm.trans hp)
      by_cases he : current = j
      · subst he
        obtain rfl : m = n := Option.some.inj (hm.symm.trans hn)
        exact .single hstep
      · -- a position other than the one just visited was visited before
        rw [List.getElem?_set_ne he] at hvisited
        exact (TransGen.single hstep).trans (hpassed n hn j m hm hvisited)

/-! ## Refusals -/

/-- Nodes with distinct names and resolvable bottoms that have a cycle are refused with the name of
one that is on a cycle. It is found from the first position that keeps a count, in at most one round
more than there are nodes. -/
theorem topologicalOrder_of_cyclic (hd : (nodes.map name).Nodup)
    (hc : ∀ n ∈ nodes, ∀ b ∈ n.bottoms, b ∈ nodes.map name) (hcyc : Cyclic nodes) :
    ∃ i, topologicalOrder nodes = .error (.cycle i) ∧
      i ∈ nodes.map name ∧ TransGen (Feeds nodes) i i ∧
      ∃ index order counts first k, positions nodes = .ok index ∧
        (Frontier.start (degrees nodes).indegree).drain (degrees nodes).consumers =
          (order, counts) ∧
        counts.findIdx? (0 < ·) = some first ∧
        Search nodes index counts (List.replicate nodes.length false) first k i ∧
        k ≤ nodes.length + 1 := by
  cases ha : arrange [] nodes.zipIdx with
  | mk xs stuck =>
      have hstuck : stuck ≠ [] := by
        rintro rfl
        have hsorted := sortTopologically_of_arranged ⟨hd, hc, ha⟩
        exact (exists_sortTopologically_iff hd hc).1 ⟨_, hsorted⟩ hcyc
      obtain ⟨index, hi, herror⟩ := (topologicalOrder_of_arrange hd hc ha).2 hstuck
      have hdrain := drain_start hd hc ha
      have hlength : (nodes.map (waiting (xs.map fun x => x.1.name).reverse)).length =
          nodes.length := List.length_map _
      generalize nodes.map (waiting (xs.map fun x => x.1.name).reverse) = counts at *
      obtain ⟨first, hfirst, hpos⟩ := exists_first_of_stuck hd hc ha hdrain hstuck
      obtain ⟨hlt, -⟩ := List.findIdx?_eq_some_iff_getElem.1 hfirst
      have hsearch : ∃ k ≤ (List.replicate nodes.length false).count false + 1,
          Search nodes index counts (List.replicate nodes.length false) first k
            (onCycle nodes index counts) := by
        rw [onCycle, hfirst]
        exact exists_search hi List.length_replicate (List.getElem?_eq_getElem (hlength ▸ hlt))
      obtain ⟨k, hk, hs⟩ := hsearch
      obtain ⟨hname, hcycle⟩ := transGen_of_search hi
        (fun j m hm => exists_producer_of_pos hd hc hdrain hi hm) hs hpos
        fun n _ j m _ hv => by simp [List.getElem?_replicate] at hv
      rw [List.count_replicate_self] at hk
      exact ⟨_, herror, hname, hcycle, index, _, counts, first, k, hi, hdrain, hfirst, hs, hk⟩

/-- A node behind a cycle of two, one of which also reads a source. -/
def tangled : List Node :=
  [{ name := "src", types := ["Input"], shapes := .tensor ⟨[1]⟩ },
    { name := "tail", types := ["ReLU"], shapes := .tensor ⟨[1]⟩, bottoms := ["b"] },
    { name := "a", types := ["Add"], shapes := .tensor ⟨[1]⟩, bottoms := ["src", "b"] },
    { name := "b", types := ["ReLU"], shapes := .tensor ⟨[1]⟩, bottoms := ["a"] }]

theorem topologicalOrder_tangled :
    (tangled.map name).Nodup ∧ (∀ n ∈ tangled, ∀ b ∈ n.bottoms, b ∈ tangled.map name) ∧
      Cyclic tangled ∧ topologicalOrder tangled = .error (.cycle "b") ∧
        TransGen (Feeds tangled) "b" "b" := by
  have hd : (tangled.map name).Nodup := by decide
  have hc : ∀ n ∈ tangled, ∀ b ∈ n.bottoms, b ∈ tangled.map name := by decide
  have hab : Feeds tangled "a" "b" := by simp [Feeds, tangled]
  have hba : Feeds tangled "b" "a" := by simp [Feeds, tangled]
  have hcyc : Cyclic tangled := ⟨"a", (TransGen.single hab).trans (.single hba)⟩
  have herror : topologicalOrder tangled = .error (.cycle "b") := by decide +kernel
  obtain ⟨i, h, -, hi, -⟩ := topologicalOrder_of_cyclic hd hc hcyc
  rw [herror] at h
  cases h
  exact ⟨hd, hc, hcyc, herror, hi⟩

end Dataflow.Node
