import Dataflow.Proofs.Tensor.Transpose

/-!
# Bias addition

A bias has one entry for each coordinate along an axis, and adding it adds to every element the
entry for the element's own coordinate. The coordinate is recovered from the position of the
element: the volume behind the axis says how often the flat list repeats a coordinate before it goes
on to the next one, and the extent of the axis says after how many of them it starts again. The axes
in front only take off whole rounds, so they do not matter.

A tensor without elements may have any extents, zeros among them. No division is made for it, so
nothing can go wrong there. What can go wrong is the volume behind the axis, which has to be a
machine size even where a zero in front of it leaves no elements.
-/

namespace Dataflow

namespace Dims

variable {dims index : List Nat} {axis extent k : Nat}

/-! ## Coordinates along an axis -/

theorem volume_eq_of_axis (h : dims[axis]? = some extent) :
    volume dims = volume (dims.drop (axis + 1)) * (extent * volume (dims.take axis)) := by
  obtain ⟨hlt, rfl⟩ := List.getElem?_eq_some_iff.1 h
  have hdrop : (dims.drop axis).prod = dims[axis] * (dims.drop (axis + 1)).prod := by
    rw [List.drop_eq_getElem_cons hlt, List.prod_cons]
  rw [volume_eq_prod, volume_eq_prod, volume_eq_prod, ← List.prod_take_mul_prod_drop dims axis,
    hdrop]
  ring

theorem getElem?_coordinates (hk : k < volume dims) (h : dims[axis]? = some extent) :
    (coordinates dims k)[axis]? = some (k / volume (dims.drop (axis + 1)) % extent) := by
  induction dims generalizing k axis with
  | nil => cases h
  | cons d ds ih =>
      have hpos : 0 < volume ds := Nat.pos_of_mul_pos_left (Nat.zero_lt_of_lt hk)
      cases axis with
      | zero =>
          obtain rfl : d = extent := Option.some.inj h
          have hlt : k / volume ds < d := (Nat.div_lt_iff_lt_mul hpos).2 hk
          rw [coordinates, List.drop_succ_cons, List.drop_zero, Nat.mod_eq_of_lt hlt]
          rfl
      | succ axis =>
          rw [List.getElem?_cons_succ] at h
          rw [coordinates, List.getElem?_cons_succ, ih (Nat.mod_lt k hpos) h, List.drop_succ_cons]
          -- the first axis takes off whole rounds of the axis in question
          rw [volume_eq_of_axis h, Nat.mod_mul_right_div_self, Nat.mod_mul_right_mod]

theorem getElem?_of_position? (hk : position? dims index = some k)
    (h : dims[axis]? = some extent) :
    index[axis]? = some (k / volume (dims.drop (axis + 1)) % extent) := by
  rw [← coordinates_of_position? hk]
  exact getElem?_coordinates (position?_lt hk) h

end Dims

namespace Tensor

variable {t u bias : Tensor} {axis i : Nat}

/-! ## Refusals -/

theorem match_of_addBias (h : t.addBias bias axis = .ok u) : t.dims[axis]? = some bias.size := by
  unfold addBias at h
  split at h
  · cases h
  · next extent hd =>
    dsimp only at h
    obtain ⟨hb, -⟩ := Failure.of_guard h
    rw [hd, not_not.1 hb]

theorem addBias_of_no_match (h : t.dims[axis]? ≠ some bias.size) :
    ∃ e, t.addBias bias axis = Failure.refuse e := by
  unfold addBias
  cases hd : t.dims[axis]? with
  | none => exact ⟨_, rfl⟩
  | some extent =>
      have hb : bias.size ≠ extent := by
        rintro rfl
        exact h hd
      dsimp only
      rw [if_pos hb]
      exact ⟨_, rfl⟩

/-! ## Sums -/

/-- Where there are elements, none of the dimensions is zero, so the coordinate of an element along
the axis exists and lies below the extent of the axis. -/
theorem exists_bias_of_position (ht : t.WellFormed) (hd : t.dims[axis]? = some bias.size)
    (hi : i < t.data.length) (x : Single) : ∃ y,
      bias.data[i / Dims.volume (t.dims.drop (axis + 1)) % bias.size]? = some y ∧
      (do
        let row ← liftM (Size.div i (Dims.volume (t.dims.drop (axis + 1))))
        let column ← liftM (Size.mod row bias.size)
        return x + (← Failure.element bias.data.toArray column) :
          Except (Failure TensorError) Single) = .ok (x + y) := by
  have hpos : 0 < Dims.volume t.dims := by
    rw [← ht]
    exact Nat.zero_lt_of_lt hi
  rw [Dims.volume_eq_of_axis hd] at hpos
  have hstride : Dims.volume (t.dims.drop (axis + 1)) ≠ 0 := by
    intro hz
    rw [hz, Nat.zero_mul] at hpos
    exact Nat.lt_irrefl 0 hpos
  have hextent : 0 < bias.size := Nat.pos_of_mul_pos_right (Nat.pos_of_mul_pos_left hpos)
  have hlt := Nat.mod_lt (i / Dims.volume (t.dims.drop (axis + 1))) hextent
  refine ⟨_, List.getElem?_eq_getElem hlt, ?_⟩
  rw [Size.div, if_neg hstride, Failure.lift_ok, Outcome.ok_bind, Size.mod, if_neg hextent.ne',
    Failure.lift_ok, Outcome.ok_bind, element_eq_ok.2 (List.getElem?_eq_getElem hlt)]
  rfl

/-- A bias that matches the axis is added as long as the volumes behind the axis are machine sizes.
Each element gets the entry of its coordinate. -/
theorem exists_addBias (ht : t.WellFormed) (hd : t.dims[axis]? = some bias.size)
    (hfit : ∀ k, Dims.volume ((t.dims.drop (axis + 1)).take k) < Size.limit) :
    ∃ data, t.addBias bias axis = .ok ⟨t.dims, data⟩ ∧ ∀ i x, t.data[i]? = some x → ∃ y,
      bias.data[i / Dims.volume (t.dims.drop (axis + 1)) % bias.size]? = some y ∧
        data[i]? = some (x + y) := by
  have hproduct := Size.product_eq_ok.2 ⟨rfl, hfit⟩
  have hok := Outcome.isOk_mapM.2 fun p hp => by
    obtain ⟨hi, -⟩ := List.mem_zipIdx' hp
    obtain ⟨y, -, hy⟩ := exists_bias_of_position ht hd hi p.1
    exact Outcome.isOk_of_eq_ok hy
  obtain ⟨data, hdata⟩ := Outcome.exists_of_isOk hok
  refine ⟨data, ?_, ?_⟩
  · unfold addBias
    rw [hd]
    dsimp only
    rw [if_neg (not_not.2 rfl), hproduct, Failure.lift_ok, Outcome.ok_bind, hdata]
    rfl
  · intro i x hx
    have hzip : t.data.zipIdx[i]? = some (x, i) := by
      rw [List.getElem?_zipIdx, hx, Option.map_some, Nat.zero_add]
    obtain ⟨z, hz, he⟩ := Outcome.exists_getElem?_of_forall₂ (Outcome.mapM_eq_ok.1 hdata) hzip
    obtain ⟨hi, -⟩ := List.getElem?_eq_some_iff.1 hx
    obtain ⟨y, hy, hsum⟩ := exists_bias_of_position ht hd hi x
    obtain rfl : x + y = z := Except.ok.inj (hsum.symm.trans he)
    exact ⟨y, hy, hz⟩

/-- Where the dimensions other than zero multiply to a machine size, a bias is added exactly if it
has an entry for each coordinate of an axis that there is, and refused otherwise. The result has the
dimensions of the tensor, and its element at an index is that of the tensor plus the entry for the
coordinate of the index along the axis. -/
theorem addBias_cases (ht : t.Accepted)
    (hfit : Dims.volume (t.dims.filter (· ≠ 0)) < Size.limit) (bias : Tensor) (axis : Nat) :
    ((∃ u, t.addBias bias axis = .ok u) ↔ ∃ h : axis < t.dims.length, t.dims[axis] = bias.size) ∧
    ((¬∃ h : axis < t.dims.length, t.dims[axis] = bias.size) →
      ∃ e, t.addBias bias axis = Failure.refuse e) ∧
    ∀ u, t.addBias bias axis = .ok u → u.dims = t.dims ∧ u.WellFormed ∧
      ∀ index, (Dims.position? t.dims index).isSome → ∃ i x y, index[axis]? = some i ∧
        t.elementAt? index = some x ∧ bias.data[i]? = some y ∧
          u.elementAt? index = some (x + y) := by
  have hwf := ht.wellFormed
  have hbehind : ∀ k, Dims.volume ((t.dims.drop (axis + 1)).take k) < Size.limit := by
    intro k
    apply Dims.volume_lt_of_sublist _ hfit
    exact (List.take_sublist k _).trans (List.drop_sublist _ _)
  rw [← List.getElem?_eq_some_iff]
  refine ⟨?_, addBias_of_no_match, ?_⟩
  · constructor
    · rintro ⟨u, h⟩
      exact match_of_addBias h
    · intro hd
      obtain ⟨data, h, -⟩ := exists_addBias hwf hd hbehind
      exact ⟨_, h⟩
  · intro u h
    have hd := match_of_addBias h
    obtain ⟨data, hdata, hsum⟩ := exists_addBias hwf hd hbehind
    obtain rfl : u = ⟨t.dims, data⟩ := Except.ok.inj (h.symm.trans hdata)
    refine ⟨rfl, hwf.addBias h, ?_⟩
    intro index hindex
    obtain ⟨k, hk⟩ := Option.isSome_iff_exists.1 hindex
    obtain ⟨x, hx⟩ := Option.isSome_iff_exists.1 (hwf.isSome_elementAt? hindex)
    have hxk : t.data[k]? = some x := by
      rw [← elementAt?_of_position? hk]
      exact hx
    obtain ⟨y, hy, hxy⟩ := hsum k x hxk
    refine ⟨_, x, y, Dims.getElem?_of_position? hk hd, hx, hy, ?_⟩
    rw [elementAt?_of_position? (t := ⟨t.dims, data⟩) hk]
    exact hxy

def layers : Tensor := ⟨[2, 2, 2], [.zero, .one, .one, .zero, .zero, .zero, .one, .one]⟩

def rowBias : Tensor := ⟨[2], [.zero, ⟨0x40000000⟩]⟩

theorem addBias_layers :
    layers.Accepted ∧ Dims.volume (layers.dims.filter (· ≠ 0)) < Size.limit ∧
      ∃ u, layers.addBias rowBias 1 = .ok u ∧ u.dims = [2, 2, 2] ∧
        u.elementAt? [1, 1, 0] = some ⟨0x40400000⟩ := by
  have ht : layers.Accepted := by decide +kernel
  have hfit : Dims.volume (layers.dims.filter (· ≠ 0)) < Size.limit := by decide
  obtain ⟨hok, -, hsums⟩ := addBias_cases ht hfit rowBias 1
  obtain ⟨u, h⟩ := hok.2 ⟨by decide, rfl⟩
  obtain ⟨hdims, -, helement⟩ := hsums u h
  obtain ⟨i, x, y, hi, hx, hy, hu⟩ := helement [1, 1, 0] (by decide)
  cases hi
  obtain rfl : .one = x := Option.some.inj hx
  obtain rfl : ⟨0x40000000⟩ = y := Option.some.inj hy
  refine ⟨ht, hfit, u, h, hdims, hu.trans ?_⟩
  decide +kernel

/-- Extents of zero around the axis leave nothing to divide. -/
example : (⟨[0, 2, 0], []⟩ : Tensor).addBias rowBias 1 = .ok ⟨[0, 2, 0], []⟩ := by
  decide +kernel

end Tensor

end Dataflow
