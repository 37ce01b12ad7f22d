import Dataflow.Proofs.Graph.Cycles
import Mathlib.Data.List.Forall2

/-!
# Linearizations

A linearization of a list of nodes is an order of its positions in which every node comes after the
nodes it reads. Nodes with distinct names and resolvable bottoms are arranged in the least of their
linearizations, compared position by position, or refused for a cycle if they have none. Everything
else is refused for a name or a bottom that is really at fault.

The arrangement is least because each step takes the earliest node that is ready: any other
linearization starts with a node that is ready as well, and so with a later one or with the same.
-/

namespace Dataflow

namespace Node

variable {nodes : List Node} {seen placed : List String} {order other : List Nat}

/-! ## Linearizations -/

/-- The positions of the nodes in an order in which each stands after the nodes it reads. -/
structure Linearizes (nodes : List Node) (order : List Nat) : Prop where
  perm : order.Perm (List.range nodes.length)
  after : ∀ i j n m, nodes[i]? = some n → nodes[j]? = some m → m.name ∈ n.bottoms →
    order.idxOf j < order.idxOf i

theorem orderedAfter_iff : Graph.orderedAfter seen nodes = true ↔
    ∀ front n back, nodes = front ++ n :: back →
      ∀ b ∈ n.bottoms, b ∈ seen ∨ b ∈ front.map name := by
  constructor
  · intro ho front n back he b hb
    subst he
    rw [orderedAfter_append, Bool.and_eq_true, Graph.orderedAfter, Bool.and_eq_true, ready,
      List.all_eq_true] at ho
    have hm := of_decide_eq_true (ho.2.1 b hb)
    rw [List.mem_append, List.mem_reverse] at hm
    exact hm.symm
  · intro h
    induction nodes generalizing seen with
    | nil => rfl
    | cons n ns ih =>
        rw [Graph.orderedAfter, Bool.and_eq_true, ready, List.all_eq_true]
        constructor
        · intro b hb
          have hs := h [] n ns rfl b hb
          simpa using hs
        · apply ih
          intro front m back he b hb
          subst he
          have hs := h (n :: front) m back rfl b hb
          rw [List.map_cons, List.mem_cons] at hs
          rw [List.mem_cons]
          tauto

theorem mem_iff_of_perm {xs : List (Node × Nat)} (hp : xs.Perm nodes.zipIdx) {n : Node} {i : Nat} :
    (n, i) ∈ xs ↔ nodes[i]? = some n := by
  rw [hp.mem_iff, List.mem_zipIdx_iff_getElem?]

theorem map_snd_zipIdx (nodes : List Node) :
    nodes.zipIdx.map Prod.snd = List.range nodes.length := by
  rw [List.zipIdx_map_snd, List.range_eq_range']

theorem perm_range_of_perm {xs : List (Node × Nat)} (hp : xs.Perm nodes.zipIdx) :
    (xs.map Prod.snd).Perm (List.range nodes.length) := by
  have h := hp.map Prod.snd
  rwa [map_snd_zipIdx] at h

theorem idxOf_lt_iff_mem_front {l front back : List Nat} {i j : Nat} (hd : l.Nodup)
    (hl : l = front ++ i :: back) : l.idxOf j < l.idxOf i ↔ j ∈ front := by
  subst hl
  have hi : i ∉ front := by
    intro hi
    have := (List.nodup_append.1 hd).2.2 i hi i List.mem_cons_self
    exact this rfl
  rw [List.idxOf_append_of_notMem hi, List.idxOf_cons_self, Nat.add_zero]
  constructor
  · intro hlt
    by_contra hj
    rw [List.idxOf_append_of_notMem hj] at hlt
    omega
  · intro hj
    rw [List.idxOf_append_of_mem hj]
    exact List.idxOf_lt_length_of_mem hj

/-- To arrange nodes in order is to linearize their positions. -/
theorem orderedAfter_iff_linearizes (hd : (nodes.map name).Nodup)
    (hc : ∀ n ∈ nodes, ∀ b ∈ n.bottoms, b ∈ nodes.map name) {xs : List (Node × Nat)}
    (hp : xs.Perm nodes.zipIdx) :
    Graph.orderedAfter [] (xs.map Prod.fst) = true ↔ Linearizes nodes (xs.map Prod.snd) := by
  have hrange := perm_range_of_perm hp
  have hnodup : (xs.map Prod.snd).Nodup := hrange.nodup_iff.2 List.nodup_range
  have hpos : ∀ {n m : Node} {i j : Nat}, nodes[i]? = some n → nodes[j]? = some m →
      n.name = m.name → i = j := by
    intro n m i j hi hj he
    have hi' : (nodes.map name)[i]? = some n.name := by rw [List.getElem?_map, hi]; rfl
    have hj' : (nodes.map name)[j]? = some n.name := by rw [List.getElem?_map, hj, he]; rfl
    obtain ⟨hlt, -⟩ := List.getElem?_eq_some_iff.1 hi'
    exact (List.getElem?_inj hlt hd).1 (hi'.trans hj'.symm)
  rw [orderedAfter_iff]
  constructor
  · intro h
    refine ⟨hrange, ?_⟩
    intro i j n m hi hj hb
    obtain ⟨front, back, rfl⟩ := List.append_of_mem ((mem_iff_of_perm hp).2 hi)
    rw [idxOf_lt_iff_mem_front hnodup (by rw [List.map_append, List.map_cons])]
    have hm := h _ n (back.map Prod.fst) (by rw [List.map_append, List.map_cons]) m.name hb
    rw [List.map_map] at hm
    obtain ⟨⟨m', j'⟩, hm', he⟩ := List.mem_map.1 (hm.resolve_left List.not_mem_nil)
    have hj' := (mem_iff_of_perm hp).1 (List.mem_append_left _ hm')
    rw [← eq_of_getElem? hd hj' hj he]
    exact List.mem_map_of_mem hm'
  · intro h front n back he b hb
    obtain ⟨front, tail, rfl, rfl, ht⟩ := List.map_eq_append_iff.1 he
    obtain ⟨⟨n, i⟩, back, rfl, rfl, rfl⟩ := List.map_eq_cons_iff.1 ht
    have hi := (mem_iff_of_perm hp).1 (List.mem_append_right _ List.mem_cons_self)
    obtain ⟨m, hm, rfl⟩ := List.mem_map.1 (hc n (List.mem_of_getElem? hi) b hb)
    obtain ⟨j, hj⟩ := List.mem_iff_getElem?.1 hm
    have hlt := h.after i j n m hi hj hb
    rw [idxOf_lt_iff_mem_front hnodup (by rw [List.map_append, List.map_cons])] at hlt
    obtain ⟨⟨m', j'⟩, hm', hjj⟩ := List.mem_map.1 hlt
    have hj' := (mem_iff_of_perm hp).1 (List.mem_append_left _ hm')
    obtain rfl : j' = j := hjj
    obtain rfl : m' = m := Option.some.inj (hj'.symm.trans hj)
    rw [List.map_map]
    exact Or.inr (List.mem_map.2 ⟨_, hm', rfl⟩)

/-! ## The least linearization -/

/-- The arrangement comes no later than any other order of the same nodes. -/
theorem arrange_least {rest order stuck other : List (Node × Nat)}
    (h : arrange placed rest = (order, stuck)) (hs : rest.Pairwise fun x y => x.2 < y.2)
    (hp : other.Perm rest) (ho : Graph.orderedAfter placed (other.map Prod.fst) = true) :
    order.map Prod.snd = other.map Prod.snd ∨
      List.Lex (· < ·) (order.map Prod.snd) (other.map Prod.snd) := by
  induction placed, rest using arrange.induct generalizing order stuck other with
  | case1 placed rest hpick =>
      rw [arrange_of_none hpick] at h
      cases h
      cases other with
      | nil => exact Or.inl rfl
      | cons y ys =>
          rw [List.map_cons, Graph.orderedAfter, Bool.and_eq_true] at ho
          exact absurd ho.1 (pick_eq_none hpick y (hp.mem_iff.1 List.mem_cons_self))
  | case2 placed rest x rest' hpick _ _ hr ih =>
      rw [arrange_of_some hpick] at h
      cases h
      obtain ⟨front, back, rfl, rfl, hfront, hx⟩ := pick_eq_some hpick
      cases other with
      | nil => exact absurd hp.length_eq (by simp)
      | cons y ys =>
          rw [List.map_cons, Graph.orderedAfter, Bool.and_eq_true] at ho
          have hy : y ∈ x :: back := by
            have hy := hp.mem_iff.1 List.mem_cons_self
            rcases List.mem_append.1 hy with hy | hy
            · exact absurd ho.1 (hfront y hy)
            · exact hy
          rw [List.map_cons, List.map_cons]
          rcases List.mem_cons.1 hy with rfl | hy
          · have hs' : (front ++ back).Pairwise fun x y => x.2 < y.2 :=
              hs.sublist ((List.sublist_cons_self _ _).append_left front)
            have hp' : ys.Perm (front ++ back) :=
              List.Perm.cons_inv (hp.trans List.perm_middle)
            rcases ih rfl hs' hp' ho.2 with he | hlt
            · exact Or.inl (by rw [he])
            · exact Or.inr (List.Lex.cons hlt)
          · have hlt : x.2 < y.2 :=
              (List.pairwise_cons.1 (List.pairwise_append.1 hs).2.1).1 y hy
            exact Or.inr (List.Lex.rel hlt)

theorem pairwise_snd_of_range {xs : List (Node × Nat)} {k : Nat}
    (h : xs.map Prod.snd = List.range k) : xs.Pairwise fun x y => x.2 < y.2 := by
  apply List.pairwise_map.1
  rw [h]
  exact List.pairwise_lt_range

theorem exists_perm_zipIdx (hp : order.Perm (List.range nodes.length)) :
    ∃ xs : List (Node × Nat), xs.Perm nodes.zipIdx ∧ xs.map Prod.snd = order := by
  have hzip : List.Forall₂ (fun i (x : Node × Nat) => x.2 = i) (List.range nodes.length)
      nodes.zipIdx := by
    rw [← map_snd_zipIdx nodes, List.forall₂_map_left_iff]
    exact List.forall₂_same.2 fun _ _ => rfl
  obtain ⟨xs, hx, hxs⟩ := List.perm_comp_forall₂ hp hzip
  refine ⟨xs, hxs, ?_⟩
  rw [← List.forall₂_eq_eq_eq, List.forall₂_map_left_iff]
  exact hx.flip

/-- A list that can be arranged is arranged in the least of its linearizations. -/
theorem Arranged.least {xs : List (Node × Nat)} (h : Arranged nodes xs) :
    Linearizes nodes (xs.map Prod.snd) ∧ ∀ other, Linearizes nodes other →
      xs.map Prod.snd = other ∨ List.Lex (· < ·) (xs.map Prod.snd) other := by
  refine ⟨(orderedAfter_iff_linearizes h.nodup h.closed h.perm).1 h.ordered, ?_⟩
  intro other hother
  obtain ⟨ys, hys, rfl⟩ := exists_perm_zipIdx hother.perm
  have ho := (orderedAfter_iff_linearizes h.nodup h.closed hys).2 hother
  have hs : nodes.zipIdx.Pairwise fun x y => x.2 < y.2 :=
    pairwise_snd_of_range (map_snd_zipIdx nodes)
  exact arrange_least h.arrange_eq hs hys ho

/-- A list with a repeated name is refused for it, else one with a bottom outside of the list for
that, else one with a cycle for this. Every other list has linearizations, and the least of them is
the order in which its nodes are sorted. -/
theorem topologicalOrder_cases (nodes : List Node) :
    (¬(nodes.map name).Nodup → ∃ i, topologicalOrder nodes = .error (.duplicateNode i) ∧
      1 < (nodes.map name).count i) ∧
    ((nodes.map name).Nodup → (∃ n ∈ nodes, ∃ b ∈ n.bottoms, b ∉ nodes.map name) →
      ∃ n ∈ nodes, ∃ b ∈ n.bottoms, b ∉ nodes.map name ∧
        topologicalOrder nodes = .error (.danglingBottom n.name b)) ∧
    ((nodes.map name).Nodup → (∀ n ∈ nodes, ∀ b ∈ n.bottoms, b ∈ nodes.map name) →
      (Cyclic nodes → ∃ i, topologicalOrder nodes = .error (.cycle i)) ∧
      (¬Cyclic nodes → ∃ order sorted, topologicalOrder nodes = .ok order ∧
        Linearizes nodes order ∧
        (∀ other, Linearizes nodes other → order = other ∨ List.Lex (· < ·) order other) ∧
        sortTopologically nodes = .ok sorted ∧ sorted.map some = order.map (nodes[·]?)) ∧
      (Linearizes nodes (List.range nodes.length) → sortTopologically nodes = .ok nodes)) := by
  refine ⟨topologicalOrder_of_duplicate, topologicalOrder_of_dangling, fun hd hc => ⟨?_, ?_, ?_⟩⟩
  · intro hcyc
    rcases arranged_or_cyclic hd hc with ⟨hacyc, -⟩ | ⟨-, h⟩
    · exact absurd hcyc hacyc
    · exact h
  · intro hacyc
    rcases arranged_or_cyclic hd hc with ⟨-, xs, h⟩ | ⟨hcyc, -⟩
    · obtain ⟨hlin, hleast⟩ := h.least
      refine ⟨_, _, topologicalOrder_eq_ok.2 ⟨xs, h, rfl⟩, hlin, hleast,
        sortTopologically_of_arranged h, ?_⟩
      rw [List.map_map, List.map_map]
      apply List.map_congr_left
      intro x hx
      exact ((mem_iff_of_perm h.perm).1 hx).symm
    · exact absurd hcyc hacyc
  · intro hlin
    apply sortTopologically_of_ordered hd
    have ho := orderedAfter_iff_linearizes hd hc (List.Perm.refl nodes.zipIdx)
    rw [List.zipIdx_map_fst, List.zipIdx_map_snd, ← List.range_eq_range'] at ho
    exact ho.2 hlin

/-- A node that reads one of two sources twice stands in front of both. -/
def unsorted : List Node :=
  [{ name := "d", types := ["Add"], shapes := .tensor ⟨[1]⟩, bottoms := ["b", "c", "b"] },
    { name := "c", types := ["Input"], shapes := .tensor ⟨[1]⟩ },
    { name := "b", types := ["Input"], shapes := .tensor ⟨[1]⟩ },
    { name := "a", types := ["Input"], shapes := .tensor ⟨[1]⟩ }]

theorem topologicalOrder_unsorted :
    (unsorted.map name).Nodup ∧ (∀ n ∈ unsorted, ∀ b ∈ n.bottoms, b ∈ unsorted.map name) ∧
      ¬Cyclic unsorted ∧ topologicalOrder unsorted = .ok [1, 2, 0, 3] ∧
        Linearizes unsorted [1, 2, 0, 3] ∧ ∀ other, Linearizes unsorted other →
          [1, 2, 0, 3] = other ∨ List.Lex (· < ·) [1, 2, 0, 3] other := by
  have hd : (unsorted.map name).Nodup := by decide
  have hc : ∀ n ∈ unsorted, ∀ b ∈ n.bottoms, b ∈ unsorted.map name := by decide
  have hok : topologicalOrder unsorted = .ok [1, 2, 0, 3] := by decide +kernel
  have hacyc : ¬Cyclic unsorted := by
    intro hcyc
    obtain ⟨i, h⟩ := ((topologicalOrder_cases unsorted).2.2 hd hc).1 hcyc
    rw [hok] at h
    cases h
  obtain ⟨order, sorted, h, hlin, hleast, -⟩ :=
    ((topologicalOrder_cases unsorted).2.2 hd hc).2.1 hacyc
  rw [hok] at h
  cases h
  exact ⟨hd, hc, hacyc, hok, hlin, hleast⟩

end Node

end Dataflow
