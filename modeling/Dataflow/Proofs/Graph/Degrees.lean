import Dataflow.Graph.Basic
import Dataflow.Proofs.Outcome

/-!
# Positions, edges and degrees

What sorting knows before it places the first node. The positions are found exactly if the names are
distinct, and the edges exactly if every bottom has a position. There is one edge for every time a
bottom is listed, so a position has as many bottoms as its node lists, and it stands among the
readers of another one as many times as it lists that one.
-/

namespace Dataflow.Node

variable {nodes : List Node} {index : Dict Nat}

/-! ## Positions -/

theorem contains_insert_iff {d : Dict Nat} {k k' : String} {i : Nat} :
    (d.insert k i).contains k' = true ↔ k' = k ∨ d.contains k' = true := by
  by_cases h : k' = k
  · subst h
    simp [Dict.contains]
  · simp [Dict.contains, Dict.get?_insert_of_ne d h, h]

/-- Entering positions stops at the first name that has been entered before. -/
theorem enterPositions_cases (position : Dict Nat) (i : Nat) (nodes : List Node) :
    (∃ index, enterPositions position i nodes = .ok index) ∨
      ∃ front n back, nodes = front ++ n :: back ∧
        enterPositions position i nodes = .error (.duplicateNode n.name) ∧
          (position.contains n.name = true ∨ n.name ∈ front.map name) := by
  induction nodes generalizing position i with
  | nil => exact Or.inl ⟨position, rfl⟩
  | cons n ns ih =>
      rw [enterPositions]
      split
      · next hn => exact Or.inr ⟨[], n, ns, rfl, rfl, Or.inl hn⟩
      · rcases ih (position.insert n.name i) (i + 1) with h | ⟨front, m, back, rfl, he, hm⟩
        · exact Or.inl h
        · refine Or.inr ⟨n :: front, m, back, rfl, he, ?_⟩
          rw [contains_insert_iff] at hm
          rw [List.map_cons, List.mem_cons]
          tauto

theorem positions_of_duplicate (hd : ¬(nodes.map name).Nodup) :
    ∃ i, positions nodes = .error (.duplicateNode i) ∧ 1 < (nodes.map name).count i := by
  rcases enterPositions_cases .empty 0 nodes with ⟨index, h⟩ | ⟨front, n, back, rfl, h, hn⟩
  · exact absurd (nodup_of_positions h) hd
  · refine ⟨n.name, h, ?_⟩
    have hfront : 0 < (front.map name).count n.name :=
      List.count_pos_iff.2 (hn.resolve_left nofun)
    rw [List.map_append, List.map_cons, List.count_append, List.count_cons_self]
    omega

theorem exists_positions (hd : (nodes.map name).Nodup) : ∃ index, positions nodes = .ok index := by
  rcases enterPositions_cases .empty 0 nodes with h | ⟨front, n, back, rfl, -, hn⟩
  · exact h
  · rw [List.map_append, List.map_cons, List.nodup_append] at hd
    exact absurd rfl (hd.2.2 _ (hn.resolve_left nofun) _ List.mem_cons_self)

theorem get?_eq_some_iff (h : positions nodes = .ok index) {b : String} {i : Nat} :
    index.get? b = some i ↔ ∃ n, nodes[i]? = some n ∧ n.name = b := by
  have hd := nodup_of_positions h
  have hat : (∃ n, nodes[i]? = some n ∧ n.name = b) ↔ (nodes.map name)[i]? = some b := by
    rw [List.getElem?_map, Option.map_eq_some_iff]
  rw [hat, get?_of_positions h]
  constructor
  · intro hi
    split at hi
    · next hb =>
      cases hi
      exact List.getElem?_idxOf hb
    · cases hi
  · intro hi
    obtain ⟨hlt, he⟩ := List.getElem?_eq_some_iff.1 hi
    subst he
    rw [if_pos (List.getElem_mem hlt), hd.idxOf_getElem i hlt]

theorem idxOf_eq_iff (hd : (nodes.map name).Nodup) {p : Nat} {n : Node} (hn : nodes[p]? = some n)
    {b : String} (hb : b ∈ nodes.map name) : (nodes.map name).idxOf b = p ↔ b = n.name := by
  have hname : (nodes.map name)[p]? = some n.name := by rw [List.getElem?_map, hn]; rfl
  obtain ⟨hlt, hat⟩ := List.getElem?_eq_some_iff.1 hname
  constructor
  · rintro rfl
    rw [← hat, List.getElem_idxOf]
  · rintro rfl
    rw [← hat, hd.idxOf_getElem p hlt]

/-! ## Edges -/

variable {α : Type} {xs : List (Node × α)}

theorem producer_of_mem (h : positions nodes = .ok index) {b : String} (hb : b ∈ nodes.map name)
    (n : Node) : producer index n b = .ok ((nodes.map name).idxOf b) := by
  rw [producer, get?_of_positions h, if_pos hb]

theorem producer_of_notMem (h : positions nodes = .ok index) {b : String}
    (hb : b ∉ nodes.map name) (n : Node) :
    producer index n b = .error (.danglingBottom n.name b) := by
  rw [producer, get?_of_positions h, if_neg hb]

def edgesAmong (names : List String) (xs : List (Node × α)) : List (Nat × α) :=
  xs.flatMap fun x => x.1.bottoms.map fun b => (names.idxOf b, x.2)

theorem edges_of_closed (h : positions nodes = .ok index)
    (hc : ∀ x ∈ xs, ∀ b ∈ x.1.bottoms, b ∈ nodes.map name) :
    edges index xs = .ok (edgesAmong (nodes.map name) xs) := by
  have hrow : ∀ x ∈ xs, x.1.bottoms.mapM (fun b => (producer index x.1 b).map fun i => (i, x.2)) =
      .ok (x.1.bottoms.map fun b => ((nodes.map name).idxOf b, x.2)) := by
    intro x hx
    rw [Outcome.mapM_eq_ok, List.forall₂_map_right_iff, List.forall₂_same]
    intro b hb
    rw [producer_of_mem h (hc x hx b hb)]
    rfl
  rw [edges, Outcome.mapM_eq_ok.2 (List.forall₂_map_right_iff.2 (List.forall₂_same.2 hrow))]
  rfl

theorem edges_of_dangling (h : positions nodes = .ok index)
    (hc : ∃ x ∈ xs, ∃ b ∈ x.1.bottoms, b ∉ nodes.map name) :
    ∃ x ∈ xs, ∃ b ∈ x.1.bottoms, b ∉ nodes.map name ∧
      edges index xs = .error (.danglingBottom x.1.name b) := by
  cases he : edges index xs with
  | ok found =>
      obtain ⟨x, hx, b, hb, hout⟩ := hc
      obtain ⟨rows, hrows, -⟩ := Outcome.bind_eq_ok.1 he
      obtain ⟨row, -, hrow⟩ := Outcome.exists_right_of_mem (Outcome.mapM_eq_ok.1 hrows) hx
      obtain ⟨e, -, hb⟩ := Outcome.exists_right_of_mem (Outcome.mapM_eq_ok.1 hrow) hb
      rw [producer_of_notMem h hout] at hb
      cases hb
  | error e =>
      have hrows := (Outcome.bind_eq_error.1 he).resolve_right nofun
      obtain ⟨x, hx, hrow⟩ := Outcome.exists_of_mapM_eq_error hrows
      obtain ⟨b, hb, hp⟩ := Outcome.exists_of_mapM_eq_error hrow
      rw [Outcome.map_eq_error] at hp
      by_cases hin : b ∈ nodes.map name
      · rw [producer_of_mem h hin] at hp
        cases hp
      · rw [producer_of_notMem h hin] at hp
        cases hp
        exact ⟨x, hx, b, hb, hin, rfl⟩

/-! ## Degrees -/

theorem consumers_foldl_addEdge (es : List (Nat × Nat)) (d : Degrees) (p : Nat) :
    (es.foldl Degrees.addEdge d).consumers[p]? =
      d.consumers[p]?.map (· ++ (es.filter (·.1 = p)).map Prod.snd) := by
  induction es generalizing d with
  | nil => simp
  | cons e es ih =>
      rw [List.foldl_cons, ih, Degrees.addEdge, List.getElem?_modify]
      by_cases hp : e.1 = p
      · simp [hp, Function.comp_def]
      · simp [hp]

theorem indegree_foldl_addEdge (es : List (Nat × Nat)) (d : Degrees) (c : Nat) :
    (es.foldl Degrees.addEdge d).indegree[c]? =
      d.indegree[c]?.map (· + es.countP (·.2 = c)) := by
  induction es generalizing d with
  | nil => simp
  | cons e es ih =>
      rw [List.foldl_cons, ih, Degrees.addEdge, List.getElem?_modify]
      by_cases hc : e.2 = c
      · simp [hc, Function.comp_def, Nat.add_assoc, Nat.add_comm 1]
      · simp [hc]

theorem countP_edgesAmong {names : List String} {q : Nat × Nat → Bool} {c : Nat} {n : Node}
    (hn : nodes[c]? = some n) (hq : ∀ e, q e = true → e.2 = c) :
    (edgesAmong names nodes.zipIdx).countP q = n.bottoms.countP fun b => q (names.idxOf b, c) := by
  have hother : ∀ xs : List (Node × Nat), (∀ x ∈ xs, x.2 ≠ c) →
      (edgesAmong names xs).countP q = 0 := by
    intro xs hxs
    rw [List.countP_eq_zero]
    intro e he hqe
    obtain ⟨x, hx, he⟩ := List.mem_flatMap.1 he
    obtain ⟨b, -, rfl⟩ := List.mem_map.1 he
    exact hxs x hx (hq _ hqe)
  have hmem : (n, c) ∈ nodes.zipIdx := List.mem_zipIdx_iff_getElem?.2 hn
  obtain ⟨front, back, hsplit⟩ := List.append_of_mem hmem
  have hd : (nodes.zipIdx.map Prod.snd).Nodup := by
    rw [List.zipIdx_map_snd]
    exact List.nodup_range'
  rw [hsplit, List.map_append, List.map_cons, List.nodup_append, List.nodup_cons] at hd
  have hfront : ∀ x ∈ front, x.2 ≠ c := fun x hx =>
    hd.2.2 _ (List.mem_map_of_mem hx) _ List.mem_cons_self
  have hback : ∀ x ∈ back, x.2 ≠ c := by
    intro x hx he
    exact hd.2.1.1 (List.mem_map.2 ⟨x, hx, he⟩)
  have happend : edgesAmong names (front ++ (n, c) :: back) = edgesAmong names front ++
      (n.bottoms.map (fun b => (names.idxOf b, c)) ++ edgesAmong names back) := by
    simp [edgesAmong]
  rw [hsplit, happend, List.countP_append, List.countP_append, hother front hfront,
    hother back hback, List.countP_map, Nat.zero_add, Nat.add_zero]
  rfl

def degrees (nodes : List Node) : Degrees :=
  .ofEdges nodes.length (edgesAmong (nodes.map name) nodes.zipIdx)

theorem indegree_degrees (nodes : List Node) :
    (degrees nodes).indegree = nodes.map fun n => n.bottoms.length := by
  refine List.ext_getElem? fun c => ?_
  rw [degrees, Degrees.ofEdges, indegree_foldl_addEdge, List.getElem?_map]
  cases hn : nodes[c]? with
  | none =>
      rw [List.getElem?_eq_none_iff] at hn
      simp [Nat.not_lt.2 hn]
  | some n =>
      obtain ⟨hlt, -⟩ := List.getElem?_eq_some_iff.1 hn
      rw [countP_edgesAmong hn fun e he => of_decide_eq_true he]
      simp [hlt]

theorem consumers_degrees {p : Nat} (hp : p < nodes.length) :
    (degrees nodes).consumers.getD p [] =
      ((edgesAmong (nodes.map name) nodes.zipIdx).filter (·.1 = p)).map Prod.snd := by
  rw [List.getD_eq_getElem?_getD, degrees, Degrees.ofEdges, consumers_foldl_addEdge]
  simp [hp]

variable (hd : (nodes.map name).Nodup)
  (hc : ∀ n ∈ nodes, ∀ b ∈ n.bottoms, b ∈ nodes.map name)
  {p c : Nat} {producer consumer : Node} (hp : nodes[p]? = some producer)

include hd hc hp

/-- A position is among the readers of another one once for every time it lists that one. -/
theorem count_consumers (hn : nodes[c]? = some consumer) :
    ((degrees nodes).consumers.getD p []).count c = consumer.bottoms.count producer.name := by
  have hcount : ((degrees nodes).consumers.getD p []).count c =
      (edgesAmong (nodes.map name) nodes.zipIdx).countP fun e => e.2 == c && e.1 = p := by
    rw [consumers_degrees (List.getElem?_eq_some_iff.1 hp).1]
    simp [List.count, List.countP_map, List.countP_filter, Function.comp_def]
  rw [hcount, countP_edgesAmong hn (by simp +contextual), List.count]
  refine List.countP_congr fun b hb => ?_
  simp [idxOf_eq_iff hd hp (hc consumer (List.mem_of_getElem? hn) b hb)]

theorem mem_consumers_iff : c ∈ (degrees nodes).consumers.getD p [] ↔
    ∃ n, nodes[c]? = some n ∧ producer.name ∈ n.bottoms := by
  constructor
  · intro h
    obtain ⟨hlt, -⟩ := List.getElem?_eq_some_iff.1 hp
    have hcount := List.count_pos_iff.2 h
    rw [consumers_degrees hlt] at h
    obtain ⟨e, he, rfl⟩ := List.mem_map.1 h
    obtain ⟨x, hx, he⟩ := List.mem_flatMap.1 (List.mem_of_mem_filter he)
    obtain ⟨b, -, rfl⟩ := List.mem_map.1 he
    have hn := List.mem_zipIdx_iff_getElem?.1 hx
    rw [count_consumers hd hc hp hn] at hcount
    exact ⟨x.1, hn, List.count_pos_iff.1 hcount⟩
  · rintro ⟨n, hn, hb⟩
    rw [← List.count_pos_iff, count_consumers hd hc hp hn]
    exact List.count_pos_iff.2 hb

end Dataflow.Node
