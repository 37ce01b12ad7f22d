import Dataflow.Proofs.Tensor.WellFormed
import Mathlib.Algebra.BigOperators.Group.List.Lemmas
import Mathlib.Algebra.BigOperators.Ring.List
import Mathlib.Algebra.Order.Ring.Nat
import Mathlib.Tactic.Ring

/-!
# Indices

An index has one coordinate for each axis, which lies below the extent of the axis. Row-major order
numbers the indices from zero: the position of an index and the index at a position are inverse to
each other, so two tensors with the same dimensions and the same elements at all indices are equal.

Walking from the index of zeros visits the indices by their positions. One step goes from the index
at a position to that at the next one, and from the last index back to the first. The strides of an
axis are the volumes behind it, and the position of an index is the sum of its coordinates, each
taken as often as its stride says. A volume may exceed a machine word, also where a zero in front
makes the whole product small, so strides and products exist exactly if all of their intermediate
values fit. An image batch and a stack of kernels have four axes, along which nested loops go over
all positions.
-/

namespace Dataflow

namespace Dims

variable {dims index : List Nat} {d i k n : Nat}

/-! ## Positions -/

/-- The position of the element at an index, where this is one. -/
def position? : (dims index : List Nat) → Option Nat
  | [], [] => some 0
  | d :: ds, i :: is => if i < d then (position? ds is).map (i * volume ds + ·) else none
  | _, _ => none

def coordinates : (dims : List Nat) → (k : Nat) → List Nat
  | [], _ => []
  | _ :: ds, k => k / volume ds :: coordinates ds (k % volume ds)

theorem position?_cons_eq_some {ds is : List Nat} :
    position? (d :: ds) (i :: is) = some k ↔
      i < d ∧ ∃ r, position? ds is = some r ∧ i * volume ds + r = k := by
  rw [position?]
  split
  · next h => simp [h]
  · next h => simp [h]

theorem position?_lt (h : position? dims index = some k) : k < volume dims := by
  induction dims generalizing index k with
  | nil =>
      cases index with
      | nil =>
          cases h
          exact Nat.one_pos
      | cons i is => cases h
  | cons d ds ih =>
      cases index with
      | nil => cases h
      | cons i is =>
          obtain ⟨hi, r, hr, rfl⟩ := position?_cons_eq_some.1 h
          have hlt := ih hr
          calc i * volume ds + r < i * volume ds + volume ds := by omega
            _ = (i + 1) * volume ds := by rw [Nat.succ_mul]
            _ ≤ d * volume ds := Nat.mul_le_mul_right _ hi

theorem isSome_position?_iff :
    (position? dims index).isSome ↔ List.Forall₂ (· < ·) index dims := by
  induction dims generalizing index with
  | nil => cases index <;> simp [position?]
  | cons d ds ih =>
      cases index with
      | nil => simp [position?]
      | cons i is =>
          rw [List.forall₂_cons, ← ih, position?]
          split
          · next h => simp [h]
          · next h => simp [h]

theorem length_of_position? (h : (position? dims index).isSome) :
    index.length = dims.length :=
  (isSome_position?_iff.1 h).length_eq

theorem position?_coordinates (h : k < volume dims) :
    position? dims (coordinates dims k) = some k := by
  induction dims generalizing k with
  | nil =>
      obtain rfl : k = 0 := Nat.lt_one_iff.1 h
      rfl
  | cons d ds ih =>
      have hpos : 0 < volume ds := Nat.pos_of_mul_pos_left (Nat.zero_lt_of_lt h)
      rw [coordinates, position?_cons_eq_some]
      refine ⟨(Nat.div_lt_iff_lt_mul hpos).2 h, k % volume ds, ih (Nat.mod_lt k hpos), ?_⟩
      rw [Nat.mul_comm]
      exact Nat.div_add_mod k (volume ds)

theorem coordinates_of_position? (h : position? dims index = some k) :
    coordinates dims k = index := by
  induction dims generalizing index k with
  | nil =>
      cases index with
      | nil => rfl
      | cons i is => cases h
  | cons d ds ih =>
      cases index with
      | nil => cases h
      | cons i is =>
          obtain ⟨-, r, hr, rfl⟩ := position?_cons_eq_some.1 h
          have hlt := position?_lt hr
          have hpos : 0 < volume ds := Nat.zero_lt_of_lt hlt
          rw [coordinates, Nat.mul_comm, Nat.mul_add_div hpos, Nat.mul_add_mod,
            Nat.div_eq_of_lt hlt, Nat.mod_eq_of_lt hlt, Nat.add_zero, ih hr]

/-! ## Walking -/

theorem coordinates_zero (dims : List Nat) : coordinates dims 0 = dims.map fun _ => 0 := by
  induction dims with
  | nil => rfl
  | cons d ds ih => rw [coordinates, Nat.zero_div, Nat.zero_mod, ih, List.map_cons]

/-- A step goes on to the next position; behind the last one it starts again. -/
theorem advance_coordinates (h : k < volume dims) :
    advance dims (coordinates dims k) =
      if k + 1 < volume dims then (coordinates dims (k + 1), false)
      else (coordinates dims 0, true) := by
  induction dims generalizing k with
  | nil =>
      obtain rfl : k = 0 := Nat.lt_one_iff.1 h
      rfl
  | cons d ds ih =>
      have hpos : 0 < volume ds := Nat.pos_of_mul_pos_left (Nat.zero_lt_of_lt h)
      have hr : k % volume ds < volume ds := Nat.mod_lt k hpos
      have hk : k = k / volume ds * volume ds + k % volume ds := by
        rw [Nat.mul_comm]
        exact (Nat.div_add_mod k (volume ds)).symm
      have hq : k / volume ds < d := (Nat.div_lt_iff_lt_mul hpos).2 h
      rw [coordinates, advance, ih hr]
      generalize k / volume ds = q at *
      generalize k % volume ds = r at *
      subst hk
      by_cases hin : r + 1 < volume ds
      · -- the step stays within the row
        have hlt : q * volume ds + r + 1 < d * volume ds := by
          calc q * volume ds + r + 1 < q * volume ds + volume ds := by omega
            _ = (q + 1) * volume ds := by rw [Nat.succ_mul]
            _ ≤ d * volume ds := Nat.mul_le_mul_right _ hq
        have hdiv : (q * volume ds + r + 1) / volume ds = q := by
          rw [Nat.add_assoc, Nat.mul_comm, Nat.mul_add_div hpos, Nat.div_eq_of_lt hin,
            Nat.add_zero]
        have hmod : (q * volume ds + r + 1) % volume ds = r + 1 := by
          rw [Nat.add_assoc, Nat.mul_comm, Nat.mul_add_mod, Nat.mod_eq_of_lt hin]
        rw [if_pos hin, volume, if_pos hlt, coordinates, hdiv, hmod]
        rfl
      · have hend : q * volume ds + r + 1 = (q + 1) * volume ds := by
          rw [Nat.succ_mul]
          omega
        rw [if_neg hin, volume, hend]
        by_cases hrow : q + 1 < d
        · have hlt : (q + 1) * volume ds < d * volume ds := Nat.mul_lt_mul_of_pos_right hrow hpos
          rw [if_pos hlt, coordinates, Nat.mul_div_cancel _ hpos, Nat.mul_mod_left]
          simp [hrow]
        · have hge : ¬(q + 1) * volume ds < d * volume ds :=
            Nat.not_lt.2 (Nat.mul_le_mul_right _ (Nat.not_lt.1 hrow))
          rw [if_neg hge, coordinates, Nat.zero_div, Nat.zero_mod]
          simp [hrow]

/-- Walking over `n` indices from the one at position `k` visits those at the `n` positions from `k`
on. -/
theorem walk_coordinates (h : k + n ≤ volume dims) :
    walk dims n (coordinates dims k) = (List.range' k n).map (coordinates dims) := by
  induction n generalizing k with
  | zero => rfl
  | succ n ih =>
      rw [walk, List.range'_succ, List.map_cons]
      congr 1
      rw [advance_coordinates (by omega)]
      split
      · exact ih (by omega)
      · obtain rfl : n = 0 := by omega
        rfl

/-- A walk over all indices visits them by their positions. -/
theorem walk_zeros (dims : List Nat) :
    walk dims (volume dims) (dims.map fun _ => 0) =
      (List.range (volume dims)).map (coordinates dims) := by
  rw [← coordinates_zero, walk_coordinates (by omega), List.range_eq_range']

/-! ## Strides -/

def volumesBehind : (dims : List Nat) → List Nat
  | [] => []
  | _ :: ds => volume ds :: volumesBehind ds

theorem length_volumesBehind (dims : List Nat) : (volumesBehind dims).length = dims.length := by
  induction dims with
  | nil => rfl
  | cons d ds ih => rw [volumesBehind, List.length_cons, List.length_cons, ih]

theorem strides_eq_ok {s : List Nat} :
    strides dims = .ok s ↔
      s = volumesBehind dims ∧ ∀ k, 0 < k → volume (dims.drop k) < Size.limit := by
  induction dims generalizing s with
  | nil =>
      have hone : volume [] < Size.limit := by decide
      simp [strides, volumesBehind, hone, eq_comm]
  | cons d ds ih =>
      rw [strides, Outcome.bind_eq_ok]
      have hsplit : (∀ k, 0 < k → volume ((d :: ds).drop k) < Size.limit) ↔
          volume ds < Size.limit ∧ ∀ k, 0 < k → volume (ds.drop k) < Size.limit := by
        constructor
        · intro h
          exact ⟨h 1 Nat.one_pos, fun k _ => h (k + 1) (Nat.succ_pos k)⟩
        · rintro ⟨hfirst, hrest⟩ k hk
          obtain ⟨j, rfl⟩ := Nat.exists_eq_add_one.2 hk
          rw [List.drop_succ_cons]
          cases j with
          | zero => exact hfirst
          | succ j => exact hrest (j + 1) (Nat.succ_pos j)
      rw [hsplit]
      cases ds with
      | nil =>
          have hone : volume [] < Size.limit := by decide
          have hstrides : s = [1] ↔ s = volumesBehind [d] := Iff.rfl
          simp [strides, ← hstrides, hone, eq_comm]
      | cons e es =>
          simp only [ih]
          constructor
          · rintro ⟨rest, ⟨rfl, hrest⟩, h⟩
            obtain ⟨v, hv, h⟩ := Outcome.bind_eq_ok.1 h
            obtain ⟨hlt, rfl⟩ := Size.check_eq_ok.1 hv
            cases h
            rw [Nat.mul_comm] at hlt ⊢
            exact ⟨rfl, hlt, hrest⟩
          · rintro ⟨rfl, hlt, hrest⟩
            refine ⟨_, ⟨rfl, hrest⟩, ?_⟩
            dsimp only [volumesBehind]
            rw [Outcome.bind_eq_ok]
            refine ⟨volume (e :: es), Size.check_eq_ok.2 ⟨?_, ?_⟩, rfl⟩
            · rw [Nat.mul_comm]
              exact hlt
            · exact Nat.mul_comm e _

theorem position?_eq_sum (h : position? dims index = some k) :
    k = (List.zipWith (· * ·) index (volumesBehind dims)).sum := by
  induction dims generalizing index k with
  | nil =>
      cases index with
      | nil => exact (Option.some.inj h).symm
      | cons i is => cases h
  | cons d ds ih =>
      cases index with
      | nil => cases h
      | cons i is =>
          obtain ⟨-, r, hr, rfl⟩ := position?_cons_eq_some.1 h
          rw [volumesBehind, List.zipWith_cons_cons, List.sum_cons, ← ih hr]

/-! ## Products -/

theorem volume_filter_pos (dims : List Nat) : 0 < volume (dims.filter (· ≠ 0)) := by
  rw [volume_eq_prod]
  apply Nat.pos_of_ne_zero
  apply List.prod_ne_zero
  simp

/-- Where the dimensions other than zero multiply to a machine size, so do all dimensions of a part
of the list. -/
theorem volume_lt_of_sublist {ds : List Nat} (hs : ds.Sublist dims)
    (h : volume (dims.filter (· ≠ 0)) < Size.limit) : volume ds < Size.limit := by
  by_cases hz : 0 ∈ ds
  · rw [volume_eq_prod, List.prod_eq_zero hz]
    exact Nat.zero_lt_of_lt h
  · have hall : ds.filter (· ≠ 0) = ds := by
      rw [List.filter_eq_self]
      intro d hd
      exact decide_eq_true fun he => hz (he ▸ hd)
    refine Nat.lt_of_le_of_lt (Nat.le_of_dvd (volume_filter_pos dims) ?_) h
    rw [volume_eq_prod, volume_eq_prod, ← hall]
    exact (hs.filter _).prod_dvd_prod

/-! ## Four axes -/

section

variable {n o r s b i y x k : Nat}

theorem position?_four : position? [n, o, r, s] [b, i, y, x] = some k ↔
    b < n ∧ i < o ∧ y < r ∧ x < s ∧ k = ((b * o + i) * r + y) * s + x := by
  simp only [position?_cons_eq_some, volume, Nat.mul_one]
  constructor
  · rintro ⟨hb, _, ⟨hi, _, ⟨hy, _, ⟨hx, _, h, rfl⟩, rfl⟩, rfl⟩, rfl⟩
    cases h
    exact ⟨hb, hi, hy, hx, by ring⟩
  · rintro ⟨hb, hi, hy, hx, rfl⟩
    exact ⟨hb, _, ⟨hi, _, ⟨hy, _, ⟨hx, 0, rfl, rfl⟩, rfl⟩, rfl⟩, by ring⟩

theorem exists_position (hk : k < n * o * r * s) :
    ∃ b < n, ∃ i < o, ∃ y < r, ∃ x < s, k = ((b * o + i) * r + y) * s + x := by
  have hvolume : k < volume [n, o, r, s] := by
    simpa [volume, Nat.mul_assoc] using hk
  have h := position?_coordinates hvolume
  simp only [coordinates] at h
  obtain ⟨hb, hi, hy, hx, hk⟩ := position?_four.1 h
  exact ⟨_, hb, _, hi, _, hy, _, hx, hk⟩

/-- The coordinates of a position as quotients and remainders. -/
theorem split_position (hi : i < o) (hy : y < r) (hx : x < s) :
    (((b * o + i) * r + y) * s + x) / (s * r * o) = b ∧
      (((b * o + i) * r + y) * s + x) / (s * r) % o = i ∧
      (((b * o + i) * r + y) * s + x) / s % r = y ∧ (((b * o + i) * r + y) * s + x) % s = x := by
  have hs : (((b * o + i) * r + y) * s + x) / s = (b * o + i) * r + y := by
    rw [Nat.mul_comm _ s, Nat.mul_add_div (by omega), Nat.div_eq_of_lt hx, Nat.add_zero]
  have hr : ((b * o + i) * r + y) / r = b * o + i := by
    rw [Nat.mul_comm _ r, Nat.mul_add_div (by omega), Nat.div_eq_of_lt hy, Nat.add_zero]
  have ho : (b * o + i) / o = b := by
    rw [Nat.mul_comm _ o, Nat.mul_add_div (by omega), Nat.div_eq_of_lt hi, Nat.add_zero]
  refine ⟨?_, ?_, ?_, ?_⟩
  · rw [← Nat.div_div_eq_div_mul, ← Nat.div_div_eq_div_mul, hs, hr, ho]
  · rw [← Nat.div_div_eq_div_mul, hs, hr, Nat.mul_comm b, Nat.mul_add_mod, Nat.mod_eq_of_lt hi]
  · rw [hs, Nat.mul_comm _ r, Nat.mul_add_mod, Nat.mod_eq_of_lt hy]
  · rw [Nat.mul_comm _ s, Nat.mul_add_mod, Nat.mod_eq_of_lt hx]

theorem forall_position {p : Nat → Nat → Nat → Nat → Prop} :
    (∀ k < n * o * r * s, p (k / (s * r * o)) (k / (s * r) % o) (k / s % r) (k % s)) ↔
      ∀ b < n, ∀ i < o, ∀ y < r, ∀ x < s, p b i y x := by
  constructor
  · intro h b hb i hi y hy x hx
    have hk := position?_lt (position?_four.2 ⟨hb, hi, hy, hx, rfl⟩)
    obtain ⟨h1, h2, h3, h4⟩ := split_position (b := b) hi hy hx
    have hp := h _ (by simpa [volume, Nat.mul_assoc] using hk)
    rwa [h1, h2, h3, h4] at hp
  · intro h k hk
    obtain ⟨b, hb, i, hi, y, hy, x, hx, rfl⟩ := exists_position hk
    obtain ⟨h1, h2, h3, h4⟩ := split_position (b := b) hi hy hx
    rw [h1, h2, h3, h4]
    exact h b hb i hi y hy x hx

end

end Dims

/-- A product of four factors, the last two of them positive, is a machine size at every step if the
first factor and the product are. -/
theorem Size.product_four {n o r s m : Nat} (hn : n < limit) (hr : 0 < r) (hs : 0 < s) :
    product [n, o, r, s] = .ok m ↔ n * o * r * s < limit ∧ m = n * o * r * s := by
  have hvolume : Dims.volume [n, o, r, s] = n * o * r * s := by
    simp [Dims.volume, Nat.mul_assoc]
  rw [Size.product_eq_ok, hvolume]
  constructor
  · rintro ⟨rfl, h⟩
    have hlt := h 4
    rw [List.take_of_length_le (by simp), hvolume] at hlt
    exact ⟨hlt, rfl⟩
  · rintro ⟨hlt, rfl⟩
    refine ⟨rfl, ?_⟩
    have hrows : n * o * r < limit := Nat.lt_of_le_of_lt (Nat.le_mul_of_pos_right _ hs) hlt
    have houts : n * o < limit := Nat.lt_of_le_of_lt (Nat.le_mul_of_pos_right _ hr) hrows
    intro k
    rcases k with _ | _ | _ | _ | k
    · show 1 < limit
      decide
    · simpa [Dims.volume] using hn
    · simpa [Dims.volume] using houts
    · simpa [Dims.volume, Nat.mul_assoc] using hrows
    · rw [List.take_of_length_le (by simp), hvolume]
      exact hlt

/-! ## Elements -/

namespace Tensor

variable {t u : Tensor}

/-- The tensor is one that can be made of its dimensions and its elements. -/
def Accepted (t : Tensor) : Prop := ofData t.dims t.data = .ok t

instance (t : Tensor) : Decidable t.Accepted :=
  inferInstanceAs (Decidable (ofData t.dims t.data = .ok t))

theorem accepted_iff : t.Accepted ↔ Size.product t.dims = .ok t.data.length := by
  unfold Accepted ofData
  rw [Outcome.bind_eq_ok]
  constructor
  · rintro ⟨n, hn, h⟩
    split at h
    · next hl => rw [hl, Failure.lift_eq_ok.1 hn]
    · cases h
  · intro h
    exact ⟨_, Failure.lift_eq_ok.2 h, if_pos rfl⟩

theorem Accepted.wellFormed (ht : t.Accepted) : t.WellFormed :=
  (Size.product_eq_ok.1 (accepted_iff.1 ht)).1

def elementAt? (t : Tensor) (index : List Nat) : Option Single :=
  (Dims.position? t.dims index).bind (t.data[·]?)

theorem elementAt?_of_position? {index : List Nat} {k : Nat}
    (h : Dims.position? t.dims index = some k) : t.elementAt? index = t.data[k]? := by
  rw [elementAt?, h, Option.bind_some]

/-- A tensor has an element at every index. -/
theorem WellFormed.isSome_elementAt? (ht : t.WellFormed) {index : List Nat}
    (h : (Dims.position? t.dims index).isSome) : (t.elementAt? index).isSome := by
  obtain ⟨k, hk⟩ := Option.isSome_iff_exists.1 h
  have hlt := Dims.position?_lt hk
  rw [← ht] at hlt
  rw [elementAt?_of_position? hk, List.getElem?_eq_getElem hlt]
  rfl

/-- An element stands where four nested loops look for it. -/
theorem WellFormed.exists_element {n o r s b i y x : Nat} (ht : t.WellFormed)
    (hd : t.dims = [n, o, r, s]) (hb : b < n) (hi : i < o) (hy : y < r) (hx : x < s) :
    ∃ v, t.elementAt? [b, i, y, x] = some v ∧
      t.data.toArray[((b * o + i) * r + y) * s + x]? = some v := by
  have hp : Dims.position? t.dims [b, i, y, x] = some (((b * o + i) * r + y) * s + x) := by
    rw [hd]
    exact Dims.position?_four.2 ⟨hb, hi, hy, hx, rfl⟩
  obtain ⟨v, hv⟩ := Option.isSome_iff_exists.1 (ht.isSome_elementAt? (Option.isSome_of_eq_some hp))
  refine ⟨v, hv, ?_⟩
  rw [elementAt?_of_position? hp] at hv
  rw [List.getElem?_toArray]
  exact hv

/-- A tensor is determined by its dimensions and its elements. -/
theorem WellFormed.ext_elementAt? (ht : t.WellFormed) (hu : u.WellFormed) (hdims : t.dims = u.dims)
    (h : ∀ index, (Dims.position? t.dims index).isSome → t.elementAt? index = u.elementAt? index) :
    t = u := by
  have hdata : t.data = u.data := by
    apply List.ext_getElem?
    intro k
    by_cases hk : k < Dims.volume t.dims
    · have hp := Dims.position?_coordinates hk
      have he := h _ (Option.isSome_of_eq_some hp)
      have hp' := hp
      rw [hdims] at hp'
      rwa [elementAt?_of_position? hp, hdims, elementAt?_of_position? hp'] at he
    · rw [List.getElem?_eq_none (ht.trans_le (Nat.not_lt.1 hk)),
        List.getElem?_eq_none (hu.trans_le (hdims ▸ Nat.not_lt.1 hk))]
  cases t
  cases u
  cases hdims
  cases hdata
  rfl

end Tensor

end Dataflow
