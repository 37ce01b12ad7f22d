import Dataflow.Graph.Basic
import Mathlib.Data.List.Nodup

/-!
# Topological arrangements

What it means to arrange nodes by taking, again and again, the first one that is ready. Arranging a
list of nodes loses nothing: the placed and the stuck nodes are a permutation of the list. Each
placed node stands after the nodes it reads, and a list in which this holds already is left as it
is.
-/

namespace Dataflow

def pick (p : α → Bool) : List α → Option (α × List α)
  | [] => none
  | x :: xs => if p x then some (x, xs) else (pick p xs).map fun r => (r.1, x :: r.2)

section

variable {α : Type u} {p : α → Bool} {xs rest : List α} {x : α}

theorem pick_eq_some (h : pick p xs = some (x, rest)) :
    ∃ front back, xs = front ++ x :: back ∧ rest = front ++ back ∧
      (∀ y ∈ front, ¬p y = true) ∧ p x = true := by
  induction xs generalizing x rest with
  | nil => cases h
  | cons y ys ih =>
      rw [pick] at h
      split at h
      · next hy =>
        cases h
        exact ⟨[], ys, rfl, rfl, by simp, hy⟩
      · next hy =>
        obtain ⟨⟨z, zs⟩, hz, he⟩ := Option.map_eq_some_iff.1 h
        cases he
        obtain ⟨front, back, rfl, rfl, hfront, hz⟩ := ih hz
        refine ⟨y :: front, back, rfl, rfl, ?_, hz⟩
        rw [List.forall_mem_cons]
        exact ⟨hy, hfront⟩

theorem pick_perm (h : pick p xs = some (x, rest)) : xs.Perm (x :: rest) := by
  obtain ⟨front, back, rfl, rfl, -, -⟩ := pick_eq_some h
  exact List.perm_middle

theorem length_of_pick (h : pick p xs = some (x, rest)) : xs.length = rest.length + 1 :=
  (pick_perm h).length_eq

theorem pick_satisfies (h : pick p xs = some (x, rest)) : p x = true := by
  obtain ⟨-, -, -, -, -, hx⟩ := pick_eq_some h
  exact hx

theorem pick_cons_of_pos (h : p x = true) : pick p (x :: xs) = some (x, xs) := by
  rw [pick, if_pos h]

theorem pick_append_of_pos {front back : List α} (hfront : ∀ y ∈ front, ¬p y = true)
    (h : p x = true) : pick p (front ++ x :: back) = some (x, front ++ back) := by
  induction front with
  | nil => exact pick_cons_of_pos h
  | cons y ys ih =>
      rw [List.forall_mem_cons] at hfront
      rw [List.cons_append, pick, if_neg hfront.1, ih hfront.2]
      rfl

theorem pick_eq_none (h : pick p xs = none) : ∀ x ∈ xs, ¬p x = true := by
  induction xs with
  | nil => simp
  | cons y ys ih =>
      rw [pick] at h
      split at h
      · cases h
      · next hy =>
        rw [List.forall_mem_cons]
        exact ⟨hy, ih (Option.map_eq_none_iff.1 h)⟩

end

namespace Node

/-! ## Arranging -/

/-- Places the first ready node, and so on while there is one: the placed nodes in order, and the
nodes that never become ready. Nodes carry their positions. -/
def arrange (placed : List String) (rest : List (Node × Nat)) :
    List (Node × Nat) × List (Node × Nat) :=
  match _h : pick (fun x => x.1.ready placed) rest with
  | none => ([], rest)
  | some (x, rest') =>
    let (order, stuck) := arrange (x.1.name :: placed) rest'
    (x :: order, stuck)
termination_by rest.length
decreasing_by
  have := length_of_pick _h
  omega

theorem arrange_of_none {placed : List String} {rest : List (Node × Nat)}
    (h : pick (fun x => x.1.ready placed) rest = none) : arrange placed rest = ([], rest) := by
  rw [arrange]
  split
  · rfl
  · next h' => rw [h] at h'; cases h'

theorem arrange_of_some {placed : List String} {rest rest' : List (Node × Nat)} {x : Node × Nat}
    (h : pick (fun x => x.1.ready placed) rest = some (x, rest')) :
    arrange placed rest =
      (x :: (arrange (x.1.name :: placed) rest').1, (arrange (x.1.name :: placed) rest').2) := by
  rw [arrange]
  split
  · next h' => rw [h] at h'; cases h'
  · next h' => rw [h] at h'; cases h'; rfl

theorem arrange_perm {placed : List String} {rest order stuck : List (Node × Nat)}
    (h : arrange placed rest = (order, stuck)) : rest.Perm (order ++ stuck) := by
  induction placed, rest using arrange.induct generalizing order stuck with
  | case1 placed rest hp =>
      rw [arrange_of_none hp] at h
      cases h
      exact .refl _
  | case2 placed rest x rest' hp _ _ hr ih =>
      rw [arrange_of_some hp] at h
      cases h
      exact (pick_perm hp).trans ((ih rfl).cons x)

theorem orderedAfter_arrange {placed : List String} {rest order stuck : List (Node × Nat)}
    (h : arrange placed rest = (order, stuck)) :
    Graph.orderedAfter placed (order.map Prod.fst) = true := by
  induction placed, rest using arrange.induct generalizing order stuck with
  | case1 placed rest hp =>
      rw [arrange_of_none hp] at h
      cases h
      rfl
  | case2 placed rest x rest' hp _ _ hr ih =>
      rw [arrange_of_some hp] at h
      cases h
      have hx := pick_satisfies hp
      rw [List.map_cons, Graph.orderedAfter, Bool.and_eq_true]
      exact ⟨hx, ih rfl⟩

theorem arrange_of_orderedAfter {placed : List String} {rest : List (Node × Nat)}
    (h : Graph.orderedAfter placed (rest.map Prod.fst) = true) :
    arrange placed rest = (rest, []) := by
  induction rest generalizing placed with
  | nil => exact arrange_of_none rfl
  | cons x rest ih =>
      rw [List.map_cons, Graph.orderedAfter, Bool.and_eq_true] at h
      rw [arrange_of_some (pick_cons_of_pos h.1), ih h.2]

theorem mem_of_orderedAfter {seen : List String} {nodes : List Node}
    (h : Graph.orderedAfter seen nodes = true) {n : Node} (hn : n ∈ nodes) {b : String}
    (hb : b ∈ n.bottoms) : b ∈ seen ∨ b ∈ nodes.map name := by
  induction nodes generalizing seen with
  | nil => cases hn
  | cons m ms ih =>
      rw [Graph.orderedAfter, Bool.and_eq_true, ready, List.all_eq_true] at h
      rcases List.mem_cons.1 hn with rfl | hn
      · exact Or.inl (of_decide_eq_true (h.1 b hb))
      · rcases ih h.2 hn with hs | hs
        · rcases List.mem_cons.1 hs with rfl | hs
          · exact Or.inr (by simp)
          · exact Or.inl hs
        · exact Or.inr (List.mem_cons_of_mem _ hs)

/-! ## Lists in order -/

/-- What passes from the nodes that are read to the node that reads them holds of all names in a
list in order. -/
theorem forall_of_orderedAfter {P : String → Prop} {seen : List String} {nodes : List Node}
    (ho : Graph.orderedAfter seen nodes = true) (hs : ∀ b ∈ seen, P b)
    (h : ∀ n ∈ nodes, (∀ b ∈ n.bottoms, P b) → P n.name) : ∀ n ∈ nodes, P n.name := by
  induction nodes generalizing seen with
  | nil => simp
  | cons n ns ih =>
      rw [Graph.orderedAfter, Bool.and_eq_true, ready, List.all_eq_true] at ho
      rw [List.forall_mem_cons] at h ⊢
      have hn : P n.name := h.1 fun b hb => hs b (of_decide_eq_true (ho.1 b hb))
      exact ⟨hn, ih ho.2 (List.forall_mem_cons.2 ⟨hn, hs⟩) h.2⟩

theorem orderedAfter_append {seen : List String} {xs ys : List Node} :
    Graph.orderedAfter seen (xs ++ ys) =
      (Graph.orderedAfter seen xs && Graph.orderedAfter ((xs.map name).reverse ++ seen) ys) := by
  induction xs generalizing seen with
  | nil => rfl
  | cons x xs ih =>
      rw [List.cons_append, Graph.orderedAfter, Graph.orderedAfter, ih, Bool.and_assoc,
        List.map_cons, List.reverse_cons, List.append_assoc, List.singleton_append]

theorem orderedAfter_map (f : Node → Node) (hn : ∀ n, (f n).name = n.name)
    (hb : ∀ n, (f n).bottoms = n.bottoms) {seen : List String} {nodes : List Node} :
    Graph.orderedAfter seen (nodes.map f) = Graph.orderedAfter seen nodes := by
  induction nodes generalizing seen with
  | nil => rfl
  | cons n ns ih =>
      rw [List.map_cons, Graph.orderedAfter, Graph.orderedAfter, ih, ready, ready, hn, hb]

theorem orderedAfter_of_sources {seen : List String} {nodes : List Node}
    (h : ∀ n ∈ nodes, n.bottoms = []) : Graph.orderedAfter seen nodes = true := by
  induction nodes generalizing seen with
  | nil => rfl
  | cons n ns ih =>
      rw [List.forall_mem_cons] at h
      rw [Graph.orderedAfter, ready, h.1, ih h.2]
      rfl

/-- Some of the nodes of a list in order are in order after the names they read from outside. -/
theorem orderedAfter_filter {q : Node → Bool} {seen seen' : List String} {nodes : List Node}
    (ho : Graph.orderedAfter seen nodes = true) (hd : (nodes.map name).Nodup)
    (hs : ∀ n ∈ nodes, n.name ∉ seen)
    (h : ∀ n ∈ nodes.filter q, ∀ b ∈ n.bottoms, b ∈ seen' ∨ b ∈ (nodes.filter q).map name) :
    Graph.orderedAfter seen' (nodes.filter q) = true := by
  induction nodes generalizing seen seen' with
  | nil => rfl
  | cons n ns ih =>
      rw [Graph.orderedAfter, Bool.and_eq_true] at ho
      rw [List.map_cons, List.nodup_cons] at hd
      have hs' : ∀ m ∈ ns, m.name ∉ n.name :: seen := by
        intro m hm hmem
        rcases List.mem_cons.1 hmem with he | hmem
        · exact hd.1 (he ▸ List.mem_map_of_mem hm)
        · exact hs m (List.mem_cons_of_mem _ hm) hmem
      by_cases hq : q n = true
      · rw [List.filter_cons_of_pos hq] at h ⊢
        rw [Graph.orderedAfter, Bool.and_eq_true, ready, List.all_eq_true]
        refine ⟨fun b hb => decide_eq_true ?_, ih ho.2 hd.2 hs' fun m hm b hb => ?_⟩
        · -- what the first node reads was seen before, so it is none of the names behind
          have hseen : b ∈ seen := of_decide_eq_true (List.all_eq_true.1 ho.1 b hb)
          refine (h n List.mem_cons_self b hb).resolve_right fun hmem => ?_
          obtain ⟨m, hm, rfl⟩ := List.mem_map.1 hmem
          rcases List.mem_cons.1 hm with rfl | hm
          · exact hs m List.mem_cons_self hseen
          · exact hs m (List.mem_cons_of_mem _ (List.mem_of_mem_filter hm)) hseen
        · rcases h m (List.mem_cons_of_mem _ hm) b hb with hb | hb
          · exact Or.inl (List.mem_cons_of_mem _ hb)
          · rcases List.mem_cons.1 hb with rfl | hb
            · exact Or.inl List.mem_cons_self
            · exact Or.inr hb
      · rw [List.filter_cons_of_neg hq] at h ⊢
        exact ih ho.2 hd.2 hs' h

end Node

end Dataflow
