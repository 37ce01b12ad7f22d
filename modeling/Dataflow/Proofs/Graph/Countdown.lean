import Dataflow.Proofs.Graph.Arrangement
import Dataflow.Proofs.Graph.Degrees
import Mathlib.Data.List.Sort
import Mathlib.Logic.Relation

/-!
# Counting down

How the counts and the queue arrange the nodes. While nodes are placed, the count of a position is
the number of bottoms of its node that are not placed yet, repeated ones counted as often as they
are listed, and the queue holds the positions that are not placed although nothing is missing to
them, in increasing order. So the position that is popped next is the one of the first node that is
ready, no count is ever taken below zero, and what keeps a count at the end is what `arrange` leaves
over.
-/

namespace Dataflow.Node

open Relation

/-! ## The queue -/

theorem mem_enqueue {i j : Nat} {js : List Nat} : j ∈ enqueue i js ↔ j = i ∨ j ∈ js := by
  induction js with
  | nil => simp [enqueue]
  | cons k ks ih =>
      rw [enqueue]
      split
      · simp
      · rw [List.mem_cons, ih, List.mem_cons]
        tauto

theorem pairwise_enqueue {i : Nat} {js : List Nat} (hs : js.Pairwise (· < ·)) (hi : i ∉ js) :
    (enqueue i js).Pairwise (· < ·) := by
  induction js with
  | nil => simp [enqueue]
  | cons k ks ih =>
      rw [List.mem_cons, not_or] at hi
      obtain ⟨hk, hks⟩ := List.pairwise_cons.1 hs
      rw [enqueue]
      split
      · next hle =>
        have hlt : i < k := Nat.lt_of_le_of_ne hle hi.1
        refine List.pairwise_cons.2 ⟨fun j hj => ?_, hs⟩
        rcases List.mem_cons.1 hj with rfl | hj
        · exact hlt
        · exact hlt.trans (hk j hj)
      · next hle =>
        refine List.pairwise_cons.2 ⟨fun j hj => ?_, ih hks hi.2⟩
        rcases mem_enqueue.1 hj with rfl | hj
        · omega
        · exact hk j hj

namespace Frontier

/-- The queue is in order, and what stands in it waits for nothing. -/
structure Sound (f : Frontier) : Prop where
  sorted : f.ready.Pairwise (· < ·)
  zero : ∀ j ∈ f.ready, f.indegree[j]? = some 0

variable {f g : Frontier} {c d i j : Nat} {cs : List Nat}

theorem release_of_count (h : f.indegree[c]? = some (d + 1)) :
    f.release c = ⟨if d = 0 then enqueue c f.ready else f.ready, f.indegree.set c d⟩ := by
  rw [release, h]

theorem Sound.release (hf : f.Sound) (h : f.indegree[c]? = some (d + 1)) : (f.release c).Sound := by
  have hout : c ∉ f.ready := by
    intro hc
    rw [hf.zero c hc] at h
    cases h
  rw [release_of_count h]
  constructor
  · dsimp only
    split
    · exact pairwise_enqueue hf.sorted hout
    · exact hf.sorted
  · intro j hj
    obtain ⟨hlt, -⟩ := List.getElem?_eq_some_iff.1 h
    by_cases hjc : c = j
    · subst hjc
      rw [List.getElem?_set_self hlt]
      dsimp only at hj
      split at hj
      · next hd => rw [hd]
      · exact absurd hj hout
    · rw [List.getElem?_set_ne hjc]
      dsimp only at hj
      split at hj
      · exact hf.zero j ((mem_enqueue.1 hj).resolve_left (Ne.symm hjc))
      · exact hf.zero j hj

theorem pop_eq_some {consumers : List (List Nat)} : f.pop consumers = some (i, g) ↔
    ∃ tail, f.ready = i :: tail ∧
      (consumers.getD i []).foldl Frontier.release { f with ready := tail } = g := by
  unfold pop
  split
  · next h => simp [h]
  · next h => simp only [h, Option.some.injEq, Prod.mk.injEq, List.cons.injEq]; grind

/-- What releasing `cs` one after the other makes of a frontier: every count goes down by the number
of times that its position is released, and those that reach zero are ready. -/
structure Released (f : Frontier) (cs : List Nat) (g : Frontier) : Prop where
  sound : g.Sound
  indegree : ∀ j, g.indegree[j]? = f.indegree[j]?.map (· - cs.count j)
  mem_ready : ∀ j, j ∈ g.ready ↔ j ∈ f.ready ∨ j ∈ cs ∧ f.indegree[j]? = some (cs.count j)

/-- No position is released more often than it counts. -/
def Covers (f : Frontier) (cs : List Nat) : Prop := ∀ c ∈ cs, cs.count c ≤ f.indegree.getD c 0

theorem Covers.exists_count (h : f.Covers (c :: cs)) : ∃ d, f.indegree[c]? = some (d + 1) := by
  have hc := h c List.mem_cons_self
  rw [List.count_cons_self, List.getD_eq_getElem?_getD] at hc
  cases he : f.indegree[c]? with
  | none => simp [he] at hc
  | some k =>
      rw [he, Option.getD_some] at hc
      exact ⟨k - 1, by congr 1; omega⟩

theorem Covers.release (h : f.Covers (c :: cs)) : (f.release c).Covers cs := by
  obtain ⟨d, hd⟩ := h.exists_count
  obtain ⟨hlt, -⟩ := List.getElem?_eq_some_iff.1 hd
  intro j hj
  have hcount := h j (List.mem_cons_of_mem c hj)
  rw [release_of_count hd, List.getD_eq_getElem?_getD]
  rw [List.getD_eq_getElem?_getD] at hcount
  by_cases hjc : c = j
  · subst hjc
    rw [List.count_cons_self, hd, Option.getD_some] at hcount
    rw [List.getElem?_set_self hlt, Option.getD_some]
    omega
  · rw [List.count_cons_of_ne hjc] at hcount
    rwa [List.getElem?_set_ne hjc]

theorem released_foldl (hf : f.Sound) (h : f.Covers cs) : Released f cs (cs.foldl .release f) := by
  induction cs generalizing f with
  | nil => exact ⟨hf, by simp, by simp⟩
  | cons c cs ih =>
      obtain ⟨d, hd⟩ := h.exists_count
      obtain ⟨hlt, -⟩ := List.getElem?_eq_some_iff.1 hd
      have hg := ih (hf.release hd) h.release
      have hcount := h c List.mem_cons_self
      rw [List.count_cons_self, List.getD_eq_getElem?_getD, hd, Option.getD_some] at hcount
      refine ⟨hg.sound, fun j => ?_, fun j => ?_⟩
      · rw [List.foldl_cons, hg.indegree, release_of_count hd]
        by_cases hjc : c = j
        · subst hjc
          rw [List.getElem?_set_self hlt, hd, List.count_cons_self, Option.map_some,
            Option.map_some]
          congr 1
          omega
        · rw [List.getElem?_set_ne hjc, List.count_cons_of_ne hjc]
      · rw [List.foldl_cons, hg.mem_ready, release_of_count hd]
        by_cases hjc : c = j
        · subst hjc
          rw [List.getElem?_set_self hlt, hd, List.count_cons_self]
          by_cases hz : d = 0
          · -- the last bottom is placed, so the position is not released again
            have hlast : cs.count c = 0 := by omega
            simp [hz, mem_enqueue, hlast]
          · have hout : c ∉ f.ready := fun hc => by simp [hf.zero c hc] at hd
            have hmem : d = cs.count c → c ∈ cs := fun he => List.count_pos_iff.1 (by omega)
            simpa [hz, hout] using hmem
        · rw [List.getElem?_set_ne hjc, List.count_cons_of_ne hjc, List.mem_cons]
          have hne : j ≠ c := Ne.symm hjc
          by_cases hz : d = 0
          · simp [hz, mem_enqueue, hne]
          · simp [hz, hne]

end Frontier

/-! ## Tracking -/

def waiting (placed : List String) (n : Node) : Nat := n.bottoms.countP (· ∉ placed)

theorem waiting_eq_zero_iff {placed : List String} {n : Node} :
    waiting placed n = 0 ↔ n.ready placed = true := by
  simp [waiting, ready]

theorem waiting_eq_add {placed : List String} {i : String} (hi : i ∉ placed) (n : Node) :
    waiting placed n = waiting (i :: placed) n + n.bottoms.count i := by
  unfold waiting
  induction n.bottoms with
  | nil => rfl
  | cons b bs ih =>
      by_cases hb : b = i
      · subst hb
        rw [List.countP_cons_of_pos (by simpa using hi), List.countP_cons_of_neg (by simp),
          List.count_cons_self, ih, Nat.add_assoc]
      · rw [List.count_cons_of_ne hb]
        by_cases hp : b ∈ placed
        · rw [List.countP_cons_of_neg (by simpa using hp),
            List.countP_cons_of_neg (by simp [hp]), ih]
        · rw [List.countP_cons_of_pos (by simpa using hp),
            List.countP_cons_of_pos (by simp [hb, hp]), ih]
          omega

theorem ready_cons {placed : List String} {n : Node} (h : n.ready placed = true) (i : String) :
    n.ready (i :: placed) = true := by
  rw [ready, List.all_eq_true] at h ⊢
  intro b hb
  exact decide_eq_true (List.mem_cons_of_mem i (of_decide_eq_true (h b hb)))

theorem mem_bottoms_of_ready_cons {placed : List String} {i : String} {n : Node}
    (h : n.ready (i :: placed) = true) (hnot : ¬n.ready placed = true) : i ∈ n.bottoms := by
  rw [ready, List.all_eq_true] at h hnot
  push Not at hnot
  obtain ⟨b, hb, hout⟩ := hnot
  rcases List.mem_cons.1 (of_decide_eq_true (h b hb)) with rfl | hmem
  · exact hb
  · exact absurd (decide_eq_true hmem) hout

theorem mem_of_ready {placed : List String} {n : Node} (h : n.ready placed = true) {b : String}
    (hb : b ∈ n.bottoms) : b ∈ placed :=
  of_decide_eq_true (List.all_eq_true.1 h b hb)

/-- The frontier behind the placed names: the counts are those of the bottoms that are missing, and
the queue holds, in order, the nodes that are neither placed nor miss any. -/
structure Tracks (nodes : List Node) (placed : List String) (f : Frontier) : Prop where
  closed : ∀ n ∈ nodes, n.name ∈ placed → n.ready placed = true
  indegree : f.indegree = nodes.map (waiting placed)
  sorted : f.ready.Pairwise (· < ·)
  mem_ready : ∀ j, j ∈ f.ready ↔
    ∃ n, nodes[j]? = some n ∧ n.name ∉ placed ∧ n.ready placed = true

section

variable {nodes : List Node} {placed : List String} {f g : Frontier} {i : Nat} {tail : List Nat}

theorem Tracks.sound (h : Tracks nodes placed f) : f.Sound where
  sorted := h.sorted
  zero j hj := by
    obtain ⟨n, hn, -, hready⟩ := (h.mem_ready j).1 hj
    rw [h.indegree, List.getElem?_map, hn, Option.map_some, waiting_eq_zero_iff.2 hready]

theorem tracks_start (nodes : List Node) :
    Tracks nodes [] (.start (degrees nodes).indegree) where
  closed _ _ h := absurd h List.not_mem_nil
  indegree := by
    rw [indegree_degrees, Frontier.start]
    simp [waiting]
  sorted := List.pairwise_lt_range.filter _
  mem_ready j := by
    rw [indegree_degrees, Frontier.start, List.mem_filter, List.mem_range, List.length_map,
      List.getElem?_map]
    constructor
    · rintro ⟨hlt, hzero⟩
      rw [List.getElem?_eq_getElem hlt] at hzero
      refine ⟨nodes[j], List.getElem?_eq_getElem hlt, List.not_mem_nil, ?_⟩
      simpa [← waiting_eq_zero_iff, waiting] using hzero
    · rintro ⟨n, hn, -, hready⟩
      rw [← waiting_eq_zero_iff] at hready
      refine ⟨(List.getElem?_eq_some_iff.1 hn).1, ?_⟩
      simpa [hn, waiting] using hready

variable (hd : (nodes.map name).Nodup)
  (hc : ∀ n ∈ nodes, ∀ b ∈ n.bottoms, b ∈ nodes.map name)

include hd

theorem eq_of_getElem? {j : Nat} {n m : Node} (hi : nodes[i]? = some n) (hj : nodes[j]? = some m)
    (he : n.name = m.name) : i = j := by
  have hi' : (nodes.map name)[i]? = some n.name := by rw [List.getElem?_map, hi]; rfl
  have hj' : (nodes.map name)[j]? = some n.name := by rw [List.getElem?_map, hj, he]; rfl
  obtain ⟨hlt, -⟩ := List.getElem?_eq_some_iff.1 hi'
  exact (List.getElem?_inj hlt hd).1 (hi'.trans hj'.symm)

include hc

/-- The readers of a node are released as often as they wait for it. -/
theorem Tracks.covers (h : Tracks nodes placed f) {n : Node} (hn : nodes[i]? = some n)
    (hout : n.name ∉ placed) (ready : List Nat) :
    Frontier.Covers { f with ready } ((degrees nodes).consumers.getD i []) := by
  intro c hmem
  obtain ⟨m, hm, -⟩ := (mem_consumers_iff hd hc hn).1 hmem
  rw [count_consumers hd hc hn hm, h.indegree, List.getD_eq_getElem?_getD, List.getElem?_map, hm,
    Option.map_some, Option.getD_some, waiting_eq_add hout]
  omega

theorem Tracks.released (h : Tracks nodes placed f) (hr : f.ready = i :: tail) {n : Node}
    (hn : nodes[i]? = some n) (hout : n.name ∉ placed) :
    Frontier.Released { f with ready := tail } ((degrees nodes).consumers.getD i [])
      (((degrees nodes).consumers.getD i []).foldl .release { f with ready := tail }) := by
  have hsound : Frontier.Sound { f with ready := tail } :=
    ⟨(List.pairwise_cons.1 (hr ▸ h.sorted)).2,
      fun j hj => h.sound.zero j (hr ▸ List.mem_cons_of_mem i hj)⟩
  exact Frontier.released_foldl hsound (h.covers hd hc hn hout tail)

omit hc in
theorem Tracks.closed_cons (h : Tracks nodes placed f) {n : Node} (hn : nodes[i]? = some n)
    (hready : n.ready placed = true) :
    ∀ m ∈ nodes, m.name ∈ n.name :: placed → m.ready placed = true := by
  intro m hm hplaced
  rcases List.mem_cons.1 hplaced with he | hplaced
  · rwa [List.inj_on_of_nodup_map hd hm (List.mem_of_getElem? hn) he]
  · exact h.closed m hm hplaced

/-- The last bottom of a reader is placed exactly if its count is the number it is released. -/
theorem Tracks.count_eq_iff (h : Tracks nodes placed f) {n m : Node} {j : Nat}
    (hn : nodes[i]? = some n) (hout : n.name ∉ placed) (hm : nodes[j]? = some m) :
    f.indegree[j]? = some (((degrees nodes).consumers.getD i []).count j) ↔
      m.ready (n.name :: placed) = true := by
  rw [← waiting_eq_zero_iff, count_consumers hd hc hn hm, h.indegree, List.getElem?_map, hm,
    Option.map_some, Option.some_inj, waiting_eq_add hout]
  omega

/-- Placing a node that is ready takes it off the bottoms that are missing to the others. -/
theorem Tracks.place (h : Tracks nodes placed f) (hr : f.ready = i :: tail) {n : Node}
    (hn : nodes[i]? = some n) (hout : n.name ∉ placed) (hready : n.ready placed = true)
    (hg : Frontier.Released { f with ready := tail } ((degrees nodes).consumers.getD i []) g) :
    Tracks nodes (n.name :: placed) g := by
  have hclosed := h.closed_cons hd hn hready
  refine ⟨fun m hm hplaced => ready_cons (hclosed m hm hplaced) _, ?_, hg.sound.sorted, ?_⟩
  · refine List.ext_getElem? fun j => ?_
    rw [hg.indegree, h.indegree, List.getElem?_map, List.getElem?_map]
    cases hm : nodes[j]? with
    | none => rfl
    | some m =>
        rw [Option.map_some, Option.map_some, Option.map_some, count_consumers hd hc hn hm,
          waiting_eq_add hout, Nat.add_sub_cancel]
  · intro j
    rw [hg.mem_ready, mem_consumers_iff hd hc hn]
    constructor
    · rintro (hj | ⟨⟨m, hm, hb⟩, he⟩)
      · obtain ⟨m, hm, hmout, hmready⟩ := (h.mem_ready j).1 (hr ▸ List.mem_cons_of_mem i hj)
        refine ⟨m, hm, fun hplaced => ?_, ready_cons hmready _⟩
        rcases List.mem_cons.1 hplaced with he | hplaced
        · have hlt := (List.pairwise_cons.1 (hr ▸ h.sorted)).1 j hj
          exact Nat.ne_of_lt hlt (eq_of_getElem? hd hn hm he.symm)
        · exact hmout hplaced
      · -- the reader has been waiting for the node, so it was not placed
        refine ⟨m, hm, fun hplaced => ?_, (h.count_eq_iff hd hc hn hout hm).1 he⟩
        exact hout (mem_of_ready (hclosed m (List.mem_of_getElem? hm) hplaced) hb)
    · rintro ⟨m, hm, hmout, hmready⟩
      rw [List.mem_cons, not_or] at hmout
      by_cases hbefore : m.ready placed = true
      · have hj := (h.mem_ready j).2 ⟨m, hm, hmout.2, hbefore⟩
        rw [hr, List.mem_cons] at hj
        refine Or.inl (hj.resolve_left ?_)
        rintro rfl
        exact hmout.1 (congrArg name (Option.some.inj (hm.symm.trans hn)))
      · exact Or.inr ⟨⟨m, hm, mem_bottoms_of_ready_cons hmready hbefore⟩,
          (h.count_eq_iff hd hc hn hout hm).2 hmready⟩

/-- One round of the countdown places the node that is popped. -/
theorem Tracks.pop (h : Tracks nodes placed f)
    (hp : f.pop (degrees nodes).consumers = some (i, g)) :
    ∃ n, nodes[i]? = some n ∧ n.name ∉ placed ∧ n.ready placed = true ∧
      Tracks nodes (n.name :: placed) g := by
  obtain ⟨tail, hr, rfl⟩ := Frontier.pop_eq_some.1 hp
  obtain ⟨n, hn, hout, hready⟩ := (h.mem_ready i).1 (hr ▸ List.mem_cons_self)
  exact ⟨n, hn, hout, hready, h.place hd hc hr hn hout hready (h.released hd hc hr hn hout)⟩

/-! ## Rounds -/

/-- One frontier comes after another one if some positions are popped in between. -/
def Later (nodes : List Node) : Frontier → Frontier → Prop :=
  ReflTransGen fun f g => ∃ i, f.pop (degrees nodes).consumers = some (i, g)

theorem exists_tracks (h : Later nodes (.start (degrees nodes).indegree) f) :
    ∃ placed, Tracks nodes placed f := by
  induction h with
  | refl => exact ⟨[], tracks_start nodes⟩
  | tail _ hp ih =>
      obtain ⟨placed, h⟩ := ih
      obtain ⟨i, hp⟩ := hp
      obtain ⟨n, -, -, -, hg⟩ := h.pop hd hc hp
      exact ⟨_, hg⟩

/-- No count is ever taken below zero: whenever a reader is released it still counts the bottom. -/
theorem exists_count_of_later (h : Later nodes (.start (degrees nodes).indegree) f)
    (hr : f.ready = i :: tail) {front back : List Nat} {c : Nat}
    (he : (degrees nodes).consumers.getD i [] = front ++ c :: back) :
    ∃ d, (front.foldl Frontier.release { f with ready := tail }).indegree[c]? = some (d + 1) := by
  obtain ⟨placed, h⟩ := exists_tracks hd hc h
  obtain ⟨n, hn, hout, -⟩ := (h.mem_ready i).1 (hr ▸ List.mem_cons_self)
  have hcovers := h.covers hd hc hn hout tail
  rw [he] at hcovers
  generalize { f with ready := tail : Frontier } = g at hcovers ⊢
  clear he
  induction front generalizing g with
  | nil => exact hcovers.exists_count
  | cons k ks ih => exact ih _ hcovers.release

/-! ## The whole countdown -/

def unplaced (nodes : List Node) (placed : List String) : List (Node × Nat) :=
  nodes.zipIdx.filter fun x => x.1.name ∉ placed

omit hd hc in
theorem mem_unplaced {n : Node} :
    (n, i) ∈ unplaced nodes placed ↔ nodes[i]? = some n ∧ n.name ∉ placed := by
  rw [unplaced, List.mem_filter, List.mem_zipIdx_iff_getElem?, decide_eq_true_iff]

omit hd hc in
theorem Tracks.pick_eq_none (h : Tracks nodes placed f) (hr : f.ready = []) :
    pick (fun x => x.1.ready placed) (unplaced nodes placed) = none := by
  cases hp : pick (fun x => x.1.ready placed) (unplaced nodes placed) with
  | none => rfl
  | some r =>
      obtain ⟨⟨n, j⟩, rest⟩ := r
      have hmem := (pick_perm hp).mem_iff.2 List.mem_cons_self
      obtain ⟨hn, hout⟩ := mem_unplaced.1 hmem
      have hready : n.ready placed = true := pick_satisfies (x := (n, j)) hp
      have hj := (h.mem_ready j).2 ⟨n, hn, hout, hready⟩
      rw [hr] at hj
      cases hj

omit hd hc in
theorem pairwise_unplaced (nodes : List Node) (placed : List String) :
    (unplaced nodes placed).Pairwise fun x y => x.2 < y.2 := by
  apply List.Pairwise.filter
  apply List.pairwise_map.1
  rw [List.zipIdx_map_snd]
  exact List.pairwise_lt_range'

omit hd hc in
theorem unplaced_cons (nodes : List Node) (placed : List String) (k : String) :
    unplaced nodes (k :: placed) = (unplaced nodes placed).filter fun x => x.1.name ≠ k := by
  rw [unplaced, unplaced, List.filter_filter]
  refine List.filter_congr fun x _ => ?_
  simp [not_or]

omit hc in
theorem Tracks.pick_eq_some (h : Tracks nodes placed f) (hr : f.ready = i :: tail) {n : Node}
    (hn : nodes[i]? = some n) (hout : n.name ∉ placed) (hready : n.ready placed = true) :
    pick (fun x => x.1.ready placed) (unplaced nodes placed) =
      some ((n, i), unplaced nodes (n.name :: placed)) := by
  obtain ⟨front, back, he⟩ := List.append_of_mem (mem_unplaced.2 ⟨hn, hout⟩)
  have hsorted := pairwise_unplaced nodes placed
  have hother : ∀ x ∈ front ++ back, nodes[x.2]? = some x.1 ∧ x.1.name ∉ placed := by
    intro x hx
    apply mem_unplaced.1
    rw [he]
    simp only [List.mem_append, List.mem_cons] at hx ⊢
    tauto
  rw [he, List.pairwise_append, List.pairwise_cons] at hsorted
  obtain ⟨-, ⟨hback, -⟩, hfront⟩ := hsorted
  have hwait : ∀ x ∈ front, ¬x.1.ready placed = true := by
    intro x hx hready
    obtain ⟨hx', hxout⟩ := hother x (List.mem_append_left _ hx)
    have hj := (h.mem_ready x.2).2 ⟨x.1, hx', hxout, hready⟩
    have hlt := hfront x hx _ List.mem_cons_self
    rcases List.mem_cons.1 (hr ▸ hj) with he | hj
    · exact Nat.ne_of_lt hlt he
    · exact Nat.lt_asymm hlt ((List.pairwise_cons.1 (hr ▸ h.sorted)).1 _ hj)
  have hne : ∀ x ∈ front ++ back, x.1.name ≠ n.name := by
    intro x hx hname
    have hpos := eq_of_getElem? hd (hother x hx).1 hn hname
    rcases List.mem_append.1 hx with hx | hx
    · exact Nat.ne_of_lt (hfront x hx _ List.mem_cons_self) hpos
    · exact Nat.ne_of_gt (hback x hx) hpos
  have hrest : (front ++ (n, i) :: back).filter (fun x => x.1.name ≠ n.name) = front ++ back := by
    rw [List.filter_append, List.filter_cons_of_neg (by simp), ← List.filter_append,
      List.filter_eq_self]
    exact fun x hx => decide_eq_true (hne x hx)
  rw [unplaced_cons, he, hrest]
  exact pick_append_of_pos hwait hready

/-- Counting down places the nodes that `arrange` places, and the nodes that it leaves over keep the
number of bottoms that are not placed. -/
theorem Tracks.drain (h : Tracks nodes placed f) {order stuck : List (Node × Nat)}
    (ha : arrange placed (unplaced nodes placed) = (order, stuck)) :
    f.drain (degrees nodes).consumers = (order.map Prod.snd,
      nodes.map (waiting ((order.map fun x => x.1.name).reverse ++ placed))) := by
  induction f using Frontier.drain.induct (degrees nodes).consumers generalizing placed order with
  | case1 f hp =>
      have hr : f.ready = [] := by
        cases hr : f.ready with
        | nil => rfl
        | cons i tail =>
            rw [Frontier.pop_eq_some.2 ⟨tail, hr, rfl⟩] at hp
            cases hp
      rw [arrange_of_none (h.pick_eq_none hr)] at ha
      cases ha
      rw [Frontier.drain]
      split
      · rw [h.indegree]
        rfl
      · next h' => rw [hp] at h'; cases h'
  | case2 f i g hp _ _ _ ih =>
      obtain ⟨tail, hr, -⟩ := Frontier.pop_eq_some.1 hp
      obtain ⟨n, hn, hout, hready, hg⟩ := h.pop hd hc hp
      rw [arrange_of_some (h.pick_eq_some hd hr hn hout hready)] at ha
      cases ha
      rw [Frontier.drain]
      split
      · next h' => rw [hp] at h'; cases h'
      · next h' =>
        rw [hp] at h'
        cases h'
        rw [ih hg rfl]
        simp

end

end Dataflow.Node
