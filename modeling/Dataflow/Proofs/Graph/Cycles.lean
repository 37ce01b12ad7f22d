import Dataflow.Proofs.Graph.Validity
import Mathlib.Data.List.Basic
import Mathlib.Logic.Relation
import Mathlib.Order.WellFoundedSet

/-!
# Cycles

Why a list of nodes cannot be put into order. A node feeds the nodes that read it; a chain of such
edges that comes back to its start is a cycle. In a list in order the edges go forward, so there is
no cycle. A node that never becomes ready reads another one of its kind, so going back from one to
the next never ends, which among finitely many nodes takes a cycle. Nodes with distinct names and
resolvable bottoms can therefore be sorted exactly if they have no cycle, and a graph is valid
exactly if its edges are recorded on both ends and it has no cycle.
-/

namespace Dataflow.Node

open Relation

def Feeds (nodes : List Node) (a b : String) : Prop := ∃ n ∈ nodes, n.name = b ∧ a ∈ n.bottoms

/-- Some chain of edges leads from a node back to itself. -/
def Cyclic (nodes : List Node) : Prop := ∃ a, TransGen (Feeds nodes) a a

variable {nodes nodes' : List Node}

theorem feeds_eq_of_perm (hp : nodes.Perm nodes') : Feeds nodes = Feeds nodes' := by
  funext a b
  simp only [Feeds, hp.mem_iff]

theorem feeds_map (f : Node → Node) (hn : ∀ n, (f n).name = n.name)
    (hb : ∀ n, (f n).bottoms = n.bottoms) (nodes : List Node) :
    Feeds (nodes.map f) = Feeds nodes := by
  funext a b
  simp [Feeds, hn, hb]

theorem cyclic_iff_of_perm (hp : nodes.Perm nodes') : Cyclic nodes ↔ Cyclic nodes' := by
  rw [Cyclic, feeds_eq_of_perm hp, Cyclic]

/-! ## Lists in order -/

theorem idxOf_lt_of_orderedAfter {seen : List String} (hd : (nodes.map name).Nodup)
    (ho : Graph.orderedAfter seen nodes = true) {n : Node} (hn : n ∈ nodes) {b : String}
    (hb : b ∈ n.bottoms) :
    b ∈ seen ∨ (nodes.map name).idxOf b < (nodes.map name).idxOf n.name := by
  induction nodes generalizing seen with
  | nil => cases hn
  | cons m ms ih =>
      rw [List.map_cons, List.nodup_cons] at hd
      rw [Graph.orderedAfter, Bool.and_eq_true, ready, List.all_eq_true] at ho
      rcases List.mem_cons.1 hn with rfl | hn
      · exact Or.inl (of_decide_eq_true (ho.1 b hb))
      · have hne : m.name ≠ n.name := fun he => hd.1 (he ▸ List.mem_map_of_mem hn)
        rw [List.map_cons, List.idxOf_cons_ne _ hne]
        by_cases hbm : m.name = b
        · rw [hbm, List.idxOf_cons_self]
          exact Or.inr (Nat.succ_pos _)
        · rw [List.idxOf_cons_ne _ hbm]
          rcases ih hd.2 ho.2 hn with hs | hlt
          · rcases List.mem_cons.1 hs with he | hs
            · exact absurd he.symm hbm
            · exact Or.inl hs
          · exact Or.inr (Nat.succ_lt_succ hlt)

theorem not_cyclic_of_orderedAfter (hd : (nodes.map name).Nodup)
    (ho : Graph.orderedAfter [] nodes = true) : ¬Cyclic nodes := by
  rintro ⟨a, h⟩
  have hlt : TransGen (· < ·) ((nodes.map name).idxOf a) ((nodes.map name).idxOf a) := by
    refine h.lift (nodes.map name).idxOf fun b t => ?_
    rintro ⟨n, hn, rfl, hb⟩
    exact (idxOf_lt_of_orderedAfter hd ho hn hb).resolve_left List.not_mem_nil
  rw [transGen_eq_self] at hlt
  exact Nat.lt_irrefl _ hlt

/-! ## Stuck nodes -/

theorem exists_unplaced_of_stuck {placed : List String} {rest order stuck : List (Node × Nat)}
    (h : arrange placed rest = (order, stuck)) {x : Node × Nat} (hx : x ∈ stuck) :
    ∃ b ∈ x.1.bottoms, b ∉ placed ∧ b ∉ order.map fun y => y.1.name := by
  induction placed, rest using arrange.induct generalizing order stuck with
  | case1 placed rest hp =>
      rw [arrange_of_none hp] at h
      cases h
      have hready : ¬x.1.ready placed = true := pick_eq_none hp x hx
      rw [ready, List.all_eq_true] at hready
      push Not at hready
      obtain ⟨b, hb, hplaced⟩ := hready
      exact ⟨b, hb, by simpa using hplaced, by simp⟩
  | case2 placed rest y rest' hp _ _ hr ih =>
      rw [arrange_of_some hp] at h
      cases h
      obtain ⟨b, hb, hplaced, horder⟩ := ih rfl hx
      rw [List.mem_cons, not_or] at hplaced
      refine ⟨b, hb, hplaced.2, ?_⟩
      rw [List.map_cons, List.mem_cons, not_or]
      exact ⟨hplaced.1, horder⟩

/-- Going from each of finitely many names to another one of them comes back to where it was. -/
theorem exists_transGen_self {r : String → String → Prop} {names : List String} (hne : names ≠ [])
    (h : ∀ b ∈ names, ∃ a ∈ names, r a b) : ∃ a, TransGen r a a := by
  by_contra hc
  have hirrefl : ∀ a, ¬TransGen r a a := fun a ha => hc ⟨a, ha⟩
  have : IsStrictOrder String (TransGen r) :=
    { irrefl := hirrefl, trans := fun _ _ _ => TransGen.trans }
  have hw : {a | a ∈ names}.WellFoundedOn (TransGen r) :=
    (List.finite_toSet names).wellFoundedOn
  obtain ⟨b, hb⟩ := List.exists_mem_of_ne_nil names hne
  -- no name is minimal, so induction along the edges refutes each of them
  refine hw.induction hb (P := fun _ => False) fun b hb ih => ?_
  obtain ⟨a, ha, hab⟩ := h b hb
  exact ih a ha (.single hab)

theorem cyclic_of_fed {names : List String} (hne : names ≠ [])
    (h : ∀ b ∈ names, ∃ a ∈ names, Feeds nodes a b) : Cyclic nodes :=
  exists_transGen_self hne h

theorem cyclic_of_feeding {names : List String} (hne : names ≠ [])
    (h : ∀ a ∈ names, ∃ b ∈ names, Feeds nodes a b) : Cyclic nodes := by
  obtain ⟨a, ha⟩ := exists_transGen_self (r := Function.swap (Feeds nodes)) hne h
  exact ⟨a, transGen_swap.1 ha⟩

theorem exists_sortTopologically_iff (hd : (nodes.map name).Nodup)
    (hc : ∀ n ∈ nodes, ∀ b ∈ n.bottoms, b ∈ nodes.map name) :
    (∃ sorted, sortTopologically nodes = .ok sorted) ↔ ¬Cyclic nodes := by
  constructor
  · rintro ⟨sorted, hs⟩
    obtain ⟨hp, ho⟩ := sortTopologically_eq_ok hs
    rw [← cyclic_iff_of_perm hp]
    exact not_cyclic_of_orderedAfter ((hp.map name).nodup_iff.2 hd) ho
  · intro hacyc
    cases ha : arrange [] nodes.zipIdx with
    | mk order stuck =>
        have hperm := arrange_perm ha
        have hmem : ∀ n, n ∈ nodes ↔ n ∈ order.map Prod.fst ∨ n ∈ stuck.map Prod.fst := by
          intro n
          have hp := (hperm.map Prod.fst).mem_iff (a := n)
          rwa [List.zipIdx_map_fst, List.map_append, List.mem_append] at hp
        by_cases hstuck : stuck = []
        · subst hstuck
          exact ⟨_, sortTopologically_of_arranged ⟨hd, hc, ha⟩⟩
        · have hne : (stuck.map fun x => x.1.name) ≠ [] := by simpa using hstuck
          refine absurd (cyclic_of_fed hne fun b hb => ?_) hacyc
          obtain ⟨x, hx, rfl⟩ := List.mem_map.1 hb
          obtain ⟨a, ha', -, hout⟩ := exists_unplaced_of_stuck ha hx
          have hxn : x.1 ∈ nodes := (hmem x.1).2 (Or.inr (List.mem_map_of_mem hx))
          obtain ⟨m, hm, rfl⟩ := List.mem_map.1 (hc x.1 hxn a ha')
          refine ⟨m.name, ?_, x.1, hxn, rfl, ha'⟩
          rcases (hmem m).1 hm with hm | hm
          · obtain ⟨y, hy, rfl⟩ := List.mem_map.1 hm
            exact absurd (List.mem_map_of_mem hy) hout
          · obtain ⟨y, hy, rfl⟩ := List.mem_map.1 hm
            exact List.mem_map.2 ⟨y, hy, rfl⟩

/-- Nodes with distinct names and resolvable bottoms are refused for a cycle if they have one. -/
theorem arranged_or_cyclic (hd : (nodes.map name).Nodup)
    (hc : ∀ n ∈ nodes, ∀ b ∈ n.bottoms, b ∈ nodes.map name) :
    (¬Cyclic nodes ∧ ∃ xs, Arranged nodes xs) ∨
      (Cyclic nodes ∧ ∃ i, topologicalOrder nodes = .error (.cycle i)) := by
  have hsort := exists_sortTopologically_iff hd hc
  rcases topologicalOrder_of_closed hd hc with ⟨xs, h⟩ | ⟨i, h⟩
  · exact Or.inl ⟨hsort.1 ⟨_, sortTopologically_of_arranged h⟩, xs, h⟩
  · refine Or.inr ⟨?_, i, h⟩
    by_contra hacyc
    obtain ⟨sorted, hs⟩ := hsort.2 hacyc
    rw [sortTopologically_eq_error.2 h] at hs
    cases hs

end Dataflow.Node

namespace Dataflow.Graph

theorem validate_eq_ok_iff_acyclic {g : Graph} :
    g.validate = .ok () ↔ Node.Mirrored g.nodes ∧ ¬Node.Cyclic g.nodes := by
  rw [validate_eq_ok, Node.exists_topologicalOrder_iff,
    Node.exists_sortTopologically_iff g.nodup g.closed]

theorem not_cyclic_of_validate {g : Graph} (h : g.validate = .ok ()) : ¬Node.Cyclic g.nodes :=
  (validate_eq_ok_iff_acyclic.1 h).2

end Dataflow.Graph
