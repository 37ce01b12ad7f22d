import Dataflow.Proofs.Tensor.Indices

/-!
# Transposition

A transposition permutes the coordinates of the indices: where axis `i` of the result is axis
`axes[i]` of the tensor, an element goes from an index to the one whose coordinate on axis `i` is
the coordinate of the index on axis `axes[i]`. It succeeds exactly for a permutation of the axes, as
long as the volumes behind the axes are machine sizes.

The walk over the result passes its indices in order, and the strides of the tensor, permuted like
its dimensions, take each of them to the position of the index it comes from: the sum that gives a
position does not depend on the order of the axes. By its dimensions and elements the result is the
only tensor of its kind, so a transposition after another one is that by the composed permutation.
-/

namespace Dataflow

namespace Dims

variable {axes other xs ys : List Nat} {n i : Nat}

/-! ## Permuted lists -/

def permute (axes xs : List Nat) : List Nat := axes.map (xs.getD · 0)

theorem length_permute (axes xs : List Nat) : (permute axes xs).length = axes.length :=
  List.length_map _

theorem getD_permute (hi : i < axes.length) :
    (permute axes xs).getD i 0 = xs.getD (axes.getD i 0) 0 := by
  simp [permute, hi]

theorem permute_range (xs : List Nat) : permute (List.range xs.length) xs = xs :=
  Tensor.map_getD_range xs

theorem permute_permute (h : ∀ i ∈ other, i < axes.length) :
    permute other (permute axes xs) = permute (permute other axes) xs := by
  conv_rhs => rw [permute, permute, List.map_map]
  apply List.map_congr_left
  intro i hi
  exact getD_permute (h i hi)

theorem perm_permute (h : axes.Perm (List.range xs.length)) : (permute axes xs).Perm xs := by
  have hp := h.map (xs.getD · 0)
  rwa [Tensor.map_getD_range] at hp

theorem lt_of_mem_axes (h : axes.Perm (List.range n)) (hi : i ∈ axes) : i < n :=
  List.mem_range.1 (h.mem_iff.1 hi)

theorem length_of_axes (h : axes.Perm (List.range n)) : axes.length = n := by
  rw [h.length_eq, List.length_range]

theorem perm_range_permute (h : axes.Perm (List.range n)) (ho : other.Perm (List.range n)) :
    (permute other axes).Perm (List.range n) := by
  have hlength := length_of_axes h
  rw [← hlength] at ho
  exact (perm_permute ho).trans h

theorem exists_permute (h : axes.Perm (List.range n)) (hl : ys.length = n) :
    ∃ xs, xs.length = n ∧ permute axes xs = ys := by
  have hlength := length_of_axes h
  have hnodup : axes.Nodup := h.nodup_iff.2 List.nodup_range
  -- the entry for an axis is the one at the place where the axis stands
  refine ⟨permute ((List.range n).map axes.idxOf) ys, by simp [permute], ?_⟩
  apply List.ext_getElem
  · rw [length_permute, hlength, hl]
  · intro i hi hi'
    rw [length_permute] at hi
    have hlt : axes[i] < n := lt_of_mem_axes h (List.getElem_mem hi)
    have hidx : axes.idxOf axes[i] = i := hnodup.idxOf_getElem i hi
    simp [permute, hlt, hidx, hi']

/-- The sum of products entry by entry does not depend on the order of the entries. -/
theorem sum_zipWith_permute (h : axes.Perm (List.range xs.length)) (hl : ys.length = xs.length) :
    (List.zipWith (· * ·) (permute axes xs) (permute axes ys)).sum =
      (List.zipWith (· * ·) xs ys).sum := by
  have hmap : ∀ l : List Nat, List.zipWith (· * ·) (permute l xs) (permute l ys) =
      l.map fun a => xs.getD a 0 * ys.getD a 0 := by
    intro l
    rw [permute, permute, List.zipWith_map, List.zipWith_self]
  conv_rhs => rw [← permute_range xs, ← permute_range ys, hl, hmap]
  rw [hmap]
  exact (h.map _).sum_eq

/-! ## Permuted indices -/

variable {dims index : List Nat}

theorem getD_lt_of_index (h : (position? dims index).isSome) (hi : i < dims.length) :
    index.getD i 0 < dims.getD i 0 := by
  obtain ⟨hl, hlt⟩ := List.forall₂_iff_get.1 (isSome_position?_iff.1 h)
  have hi' : i < index.length := hl ▸ hi
  simpa [hi, hi'] using hlt i hi' hi

theorem isSome_position?_of_getD (hl : index.length = dims.length)
    (h : ∀ i < dims.length, index.getD i 0 < dims.getD i 0) : (position? dims index).isSome := by
  rw [isSome_position?_iff, List.forall₂_iff_get]
  refine ⟨hl, ?_⟩
  intro i hi hi'
  simpa [hi, hi'] using h i hi'

/-- To permute dimensions and index alike makes an index of an index, and of nothing else. -/
theorem isSome_position?_permute (h : axes.Perm (List.range dims.length))
    (hl : index.length = dims.length) :
    (position? (permute axes dims) (permute axes index)).isSome ↔
      (position? dims index).isSome := by
  have hlength := length_of_axes h
  constructor
  · intro hs
    apply isSome_position?_of_getD hl
    intro a ha
    have hmem : a ∈ axes := h.mem_iff.2 (List.mem_range.2 ha)
    obtain ⟨i, hi, rfl⟩ := List.getElem_of_mem hmem
    have hlt := getD_lt_of_index hs (by rwa [length_permute])
    rw [getD_permute hi, getD_permute hi] at hlt
    simpa [hi] using hlt
  · intro hs
    apply isSome_position?_of_getD
    · rw [length_permute, length_permute]
    · intro i hi
      rw [length_permute] at hi
      rw [getD_permute hi, getD_permute hi]
      apply getD_lt_of_index hs
      simpa [hi] using lt_of_mem_axes h (List.getElem_mem hi)

/-- The permuted strides take a permuted index to the position of the index. -/
theorem sum_permute_eq_position {k : Nat} (h : axes.Perm (List.range dims.length))
    (hk : position? dims index = some k) :
    (List.zipWith (· * ·) (permute axes index) (permute axes (volumesBehind dims))).sum = k := by
  have hl := length_of_position? (Option.isSome_of_eq_some hk)
  rw [← hl] at h
  rw [sum_zipWith_permute h ((length_volumesBehind dims).trans hl.symm), ← position?_eq_sum hk]

end Dims

/-! ## Transposed tensors -/

namespace Tensor

variable {t u v : Tensor} {axes other : List Nat}

/-- The tensor `u` holds the elements of `t`, its axis `i` being axis `axes[i]` of `t`. -/
structure Transposed (t : Tensor) (axes : List Nat) (u : Tensor) : Prop where
  dims : u.dims = Dims.permute axes t.dims
  wellFormed : u.WellFormed
  element : ∀ index, (Dims.position? t.dims index).isSome →
    u.elementAt? (Dims.permute axes index) = t.elementAt? index

/-- Every index of the transposed tensor is the permuted one of an index of the tensor. -/
theorem Transposed.exists_index (h : Transposed t axes u)
    (hp : axes.Perm (List.range t.dims.length)) {index : List Nat}
    (hi : (Dims.position? u.dims index).isSome) :
    ∃ source, (Dims.position? t.dims source).isSome ∧ index = Dims.permute axes source ∧
      u.elementAt? index = t.elementAt? source := by
  have hl : index.length = t.dims.length := by
    rw [Dims.length_of_position? hi, h.dims, Dims.length_permute, Dims.length_of_axes hp]
  obtain ⟨source, hsource, rfl⟩ := Dims.exists_permute hp hl
  rw [h.dims, Dims.isSome_position?_permute hp hsource] at hi
  exact ⟨source, hi, rfl, h.element source hi⟩

theorem Transposed.unique (hp : axes.Perm (List.range t.dims.length)) (hu : Transposed t axes u)
    (hv : Transposed t axes v) : u = v := by
  apply hu.wellFormed.ext_elementAt? hv.wellFormed (hu.dims.trans hv.dims.symm)
  intro index hi
  obtain ⟨source, hs, rfl, he⟩ := hu.exists_index hp hi
  rw [he, hv.element source hs]

theorem Transposed.refl (ht : t.WellFormed) : Transposed t (List.range t.dims.length) t := by
  refine ⟨(Dims.permute_range t.dims).symm, ht, ?_⟩
  intro index hi
  rw [← Dims.length_of_position? hi, Dims.permute_range]

theorem Transposed.trans (hp : axes.Perm (List.range t.dims.length))
    (ho : other.Perm (List.range t.dims.length)) (hu : Transposed t axes u)
    (hv : Transposed u other v) : Transposed t (Dims.permute other axes) v := by
  have hlt : ∀ i ∈ other, i < axes.length := by
    intro i hi
    rw [Dims.length_of_axes hp]
    exact Dims.lt_of_mem_axes ho hi
  refine ⟨?_, hv.wellFormed, ?_⟩
  · rw [hv.dims, hu.dims, Dims.permute_permute hlt]
  · intro index hi
    have hi' : (Dims.position? u.dims (Dims.permute axes index)).isSome := by
      rw [hu.dims, Dims.isSome_position?_permute hp (Dims.length_of_position? hi)]
      exact hi
    rw [← Dims.permute_permute hlt, hv.element _ hi', hu.element index hi]

/-! ## The computation -/

theorem admissible_of_perm {rank : Nat} (hp : axes.Perm (List.range rank)) :
    axes.all (· < rank) = true ∧ axes.Nodup := by
  refine ⟨?_, hp.nodup_iff.2 List.nodup_range⟩
  rw [List.all_eq_true]
  exact fun i hi => decide_eq_true (Dims.lt_of_mem_axes hp hi)

/-- What a transposition computes once its axes and strides are known. -/
theorem transpose_eq (hp : axes.Perm (List.range t.dims.length))
    (hfit : ∀ k, 0 < k → Dims.volume (t.dims.drop k) < Size.limit) :
    t.transpose axes =
      ((Dims.walk (Dims.permute axes t.dims) t.data.length
          ((Dims.permute axes t.dims).map fun _ => 0)).mapM fun index =>
        Failure.element t.data.toArray
          (List.zipWith (· * ·) index
            (Dims.permute axes (Dims.volumesBehind t.dims))).sum).map
        fun data => ⟨Dims.permute axes t.dims, data⟩ := by
  have hstrides : Dims.strides t.dims = .ok (Dims.volumesBehind t.dims) :=
    Dims.strides_eq_ok.2 ⟨rfl, hfit⟩
  unfold transpose
  rw [if_neg (not_not.2 (Dims.length_of_axes hp)), if_neg (not_not.2 (admissible_of_perm hp)),
    hstrides]
  rfl

theorem element_eq_ok {ε α : Type} {xs : List α} {k : Nat} {x : α} :
    (Failure.element xs.toArray k : Except (Failure ε) α) = .ok x ↔ xs[k]? = some x := by
  unfold Failure.element
  rw [List.getElem?_toArray]
  cases xs[k]? with
  | none => simp [Failure.stop]
  | some y => simp

/-- The index that the walk over the result has reached comes from an index of the tensor. -/
theorem exists_source_of_walk (ht : t.WellFormed) (hp : axes.Perm (List.range t.dims.length))
    {index : List Nat} (h : index ∈ Dims.walk (Dims.permute axes t.dims) t.data.length
      ((Dims.permute axes t.dims).map fun _ => 0)) :
    ∃ source k, Dims.position? t.dims source = some k ∧ index = Dims.permute axes source := by
  have hvolume : t.data.length = Dims.volume (Dims.permute axes t.dims) :=
    ht.trans (volume_permuted hp).symm
  rw [hvolume, Dims.walk_zeros] at h
  obtain ⟨j, hj, rfl⟩ := List.mem_map.1 h
  have hpos := Option.isSome_of_eq_some (Dims.position?_coordinates (List.mem_range.1 hj))
  have hl := Dims.length_of_position? hpos
  rw [Dims.length_permute, Dims.length_of_axes hp] at hl
  obtain ⟨source, hsource, he⟩ := Dims.exists_permute hp hl
  rw [← he, Dims.isSome_position?_permute hp hsource] at hpos
  obtain ⟨k, hk⟩ := Option.isSome_iff_exists.1 hpos
  exact ⟨source, k, hk, he.symm⟩

theorem isOk_element_of_walk (ht : t.WellFormed) (hp : axes.Perm (List.range t.dims.length))
    {index : List Nat} (h : index ∈ Dims.walk (Dims.permute axes t.dims) t.data.length
      ((Dims.permute axes t.dims).map fun _ => 0)) :
    (Failure.element t.data.toArray (List.zipWith (· * ·) index
      (Dims.permute axes (Dims.volumesBehind t.dims))).sum :
        Except (Failure TensorError) Single).isOk := by
  obtain ⟨source, k, hk, rfl⟩ := exists_source_of_walk ht hp h
  have hlt := Dims.position?_lt hk
  rw [← ht] at hlt
  rw [Dims.sum_permute_eq_position hp hk, element_eq_ok.2 (List.getElem?_eq_getElem hlt)]
  rfl

theorem exists_transpose (ht : t.WellFormed) (hp : axes.Perm (List.range t.dims.length))
    (hfit : ∀ k, 0 < k → Dims.volume (t.dims.drop k) < Size.limit) :
    ∃ u, t.transpose axes = .ok u := by
  rw [transpose_eq hp hfit]
  have hdata := Outcome.isOk_mapM.2 fun _ hindex => isOk_element_of_walk ht hp hindex
  obtain ⟨data, hdata⟩ := Outcome.exists_of_isOk hdata
  exact ⟨_, Outcome.map_eq_ok.2 ⟨data, hdata, rfl⟩⟩

theorem transposed_of_transpose (ht : t.WellFormed) (h : t.transpose axes = .ok u) :
    Transposed t axes u := by
  obtain ⟨hp, hdims, -⟩ := transpose_eq_ok h
  have hu := ht.transpose h
  refine ⟨hdims, hu, ?_⟩
  intro index hi
  have hfit : ∀ k, 0 < k → Dims.volume (t.dims.drop k) < Size.limit := by
    unfold transpose at h
    dsimp only at h
    obtain ⟨-, h⟩ := Failure.of_guard h
    obtain ⟨-, h⟩ := Failure.of_guard h
    obtain ⟨strides, hs, -⟩ := Outcome.bind_eq_ok.1 h
    exact (Dims.strides_eq_ok.1 (Failure.lift_eq_ok.1 hs)).2
  rw [transpose_eq hp hfit] at h
  obtain ⟨data, hdata, rfl⟩ := Outcome.map_eq_ok.1 h
  obtain ⟨k, hk⟩ := Option.isSome_iff_exists.1 hi
  have hl := Dims.length_of_position? hi
  obtain ⟨j, hj⟩ :=
    Option.isSome_iff_exists.1 ((Dims.isSome_position?_permute hp hl).2 hi)
  have hvolume : t.data.length = Dims.volume (Dims.permute axes t.dims) :=
    ht.trans (volume_permuted hp).symm
  have hwalk : (Dims.walk (Dims.permute axes t.dims) t.data.length
      ((Dims.permute axes t.dims).map fun _ => 0))[j]? = some (Dims.permute axes index) := by
    rw [hvolume, Dims.walk_zeros, List.getElem?_map, List.getElem?_range (Dims.position?_lt hj),
      Option.map_some, Dims.coordinates_of_position? hj]
  obtain ⟨x, hx, he⟩ := Outcome.exists_getElem?_of_forall₂ (Outcome.mapM_eq_ok.1 hdata) hwalk
  rw [Dims.sum_permute_eq_position hp hk, element_eq_ok] at he
  rw [elementAt?_of_position? hj, elementAt?_of_position? hk, he]
  exact hx

theorem transpose_of_not_perm (hp : ¬axes.Perm (List.range t.dims.length)) :
    ∃ e, t.transpose axes = Failure.refuse e := by
  unfold transpose
  by_cases hl : axes.length = t.dims.length
  · have haxes : ¬(axes.all (· < t.dims.length) = true ∧ axes.Nodup) := by
      rintro ⟨hall, hnodup⟩
      rw [List.all_eq_true] at hall
      exact hp (perm_range_of_nodup hl (fun i hi => of_decide_eq_true (hall i hi)) hnodup)
    rw [if_neg (not_not.2 hl), if_pos haxes]
    exact ⟨_, rfl⟩
  · rw [if_pos hl]
    exact ⟨_, rfl⟩

/-- A tensor whose dimensions other than zero multiply to a machine size can be transposed exactly
by the permutations of its axes; everything else is refused. The result has the permuted dimensions,
and its element at an index is the one of the tensor at the index that it is the permuted one of. To
transpose it again is to transpose the tensor by the composed permutation, and where this is the
identity, the tensor comes back. -/
theorem transpose_cases (ht : t.Accepted)
    (hfit : Dims.volume (t.dims.filter (· ≠ 0)) < Size.limit) (axes : List Nat) :
    ((∃ u, t.transpose axes = .ok u) ↔ axes.Perm (List.range t.dims.length)) ∧
    (¬axes.Perm (List.range t.dims.length) → ∃ e, t.transpose axes = Failure.refuse e) ∧
    ∀ u, t.transpose axes = .ok u →
      u.dims = axes.map (t.dims.getD · 0) ∧
      (∀ index, (Dims.position? u.dims index).isSome → ∃ source,
        (Dims.position? t.dims source).isSome ∧ index = axes.map (source.getD · 0) ∧
          (t.elementAt? source).isSome ∧ u.elementAt? index = t.elementAt? source) ∧
      ∀ other, other.Perm (List.range t.dims.length) →
        (∃ v, u.transpose other = .ok v ∧
          t.transpose (other.map (axes.getD · 0)) = .ok v) ∧
        (other.map (axes.getD · 0) = List.range t.dims.length → u.transpose other = .ok t) := by
  have hwf := ht.wellFormed
  have hbehind : ∀ k, 0 < k → Dims.volume (t.dims.drop k) < Size.limit :=
    fun k _ => Dims.volume_lt_of_sublist (List.drop_sublist k t.dims) hfit
  refine ⟨⟨fun ⟨u, h⟩ => (transpose_eq_ok h).1, fun hp => exists_transpose hwf hp hbehind⟩,
    transpose_of_not_perm, ?_⟩
  intro u h
  have hp := (transpose_eq_ok h).1
  have hu := transposed_of_transpose hwf h
  refine ⟨hu.dims, ?_, ?_⟩
  · intro index hi
    obtain ⟨source, hs, hindex, he⟩ := hu.exists_index hp hi
    exact ⟨source, hs, hindex, hwf.isSome_elementAt? hs, he⟩
  · intro other ho
    have hperm : u.dims.Perm t.dims := by
      rw [hu.dims]
      exact Dims.perm_permute hp
    have hfit' : Dims.volume (u.dims.filter (· ≠ 0)) < Size.limit := by
      rw [Dims.volume_eq_of_perm (hperm.filter _)]
      exact hfit
    have ho' : other.Perm (List.range u.dims.length) := by
      rw [hperm.length_eq]
      exact ho
    obtain ⟨v, hv⟩ := exists_transpose hu.wellFormed ho' fun k _ =>
      Dims.volume_lt_of_sublist (List.drop_sublist k u.dims) hfit'
    have hcomp := hu.trans hp ho (transposed_of_transpose hu.wellFormed hv)
    have hpc := Dims.perm_range_permute hp ho
    refine ⟨⟨v, hv, ?_⟩, ?_⟩
    · obtain ⟨w, hw⟩ := exists_transpose hwf hpc hbehind
      rw [hcomp.unique hpc (transposed_of_transpose hwf hw)]
      exact hw
    · intro hid
      rw [hv]
      change Dims.permute other axes = _ at hid
      rw [hid] at hcomp hpc
      rw [hcomp.unique hpc (.refl hwf)]

def brick : Tensor := ⟨[2, 1, 3], [⟨0⟩, ⟨1⟩, ⟨2⟩, ⟨3⟩, ⟨4⟩, ⟨5⟩]⟩

theorem transpose_brick :
    brick.Accepted ∧ Dims.volume (brick.dims.filter (· ≠ 0)) < Size.limit ∧
      ∃ u, brick.transpose [2, 0, 1] = .ok u ∧
        u = ⟨[3, 2, 1], [⟨0⟩, ⟨3⟩, ⟨1⟩, ⟨4⟩, ⟨2⟩, ⟨5⟩]⟩ ∧ u.transpose [1, 2, 0] = .ok brick := by
  have ht : brick.Accepted := by decide +kernel
  have hfit : Dims.volume (brick.dims.filter (· ≠ 0)) < Size.limit := by decide
  have ho : [1, 2, 0].Perm (List.range brick.dims.length) := by decide
  have h : brick.transpose [2, 0, 1] =
      .ok ⟨[3, 2, 1], [⟨0⟩, ⟨3⟩, ⟨1⟩, ⟨4⟩, ⟨2⟩, ⟨5⟩]⟩ := by decide +kernel
  obtain ⟨-, -, hresult⟩ := transpose_cases ht hfit [2, 0, 1]
  exact ⟨ht, hfit, _, h, rfl, ((hresult _ h).2.2 [1, 2, 0] ho).2 (by decide)⟩

end Tensor

end Dataflow
