import Dataflow.Proofs.Tensor.Filling
import Dataflow.Tensor.Bias
import Dataflow.Tensor.Value
import Mathlib.Algebra.BigOperators.Group.List.Basic
import Mathlib.Data.List.Perm.Subperm

/-!
# Well-formed tensors

Every operation on tensors returns a tensor with as many elements as its dimensions ask for. Most of
them keep the dimensions of a tensor and replace its elements one by one. A transposition permutes
the dimensions, which does not change their product, and a convolution makes as many elements as
the checked product of its output dimensions says, which is exact where it is one at all.
-/

namespace Dataflow

theorem Outcome.length_of_mapM {ε : Type} {α β : Type} {f : α → Except ε β} {xs : List α}
    {ys : List β} (h : xs.mapM f = .ok ys) : ys.length = xs.length :=
  (Outcome.mapM_eq_ok.1 h).length_eq.symm

/-- A computation that may only stop, as one that may also be refused. -/
theorem Failure.lift_eq_ok {ε α : Type} {x : Except Fault α} {a : α} :
    (MonadLiftT.monadLift x : Except (Failure ε) α) = .ok a ↔ x = .ok a := by
  cases x with
  | ok b => exact ⟨fun h => by cases h; rfl, fun h => by cases h; rfl⟩
  | error f => exact ⟨nofun, nofun⟩

theorem Failure.lift_ok {ε α : Type} (a : α) :
    (liftM (.ok a : Except Fault α) : Except (Failure ε) α) = .ok a := rfl

theorem Failure.lift_bind {ε α β : Type} (x : Except Fault α) (f : α → Except Fault β) :
    (liftM (x >>= f) : Except (Failure ε) β) = liftM x >>= fun a => liftM (f a) := by
  cases x <;> rfl

/-- A computation that got past a check. -/
theorem Failure.of_guard {ε α : Type} {p : Prop} [Decidable p] {e : ε}
    {x : Except (Failure ε) α} {a : α} (h : (if p then do Failure.refuse e; x else x) = .ok a) :
    ¬p ∧ x = .ok a := by
  split at h
  · cases h
  · next hp => exact ⟨hp, h⟩

/-! ## Products -/

theorem Dims.volume_eq_prod (dims : List Nat) : Dims.volume dims = dims.prod := by
  induction dims with
  | nil => rfl
  | cons d ds ih => rw [Dims.volume, ih, List.prod_cons]

/-- The order of the axes does not matter for the number of elements. -/
theorem Dims.volume_eq_of_perm {dims dims' : List Nat} (h : dims.Perm dims') :
    Dims.volume dims = Dims.volume dims' := by
  rw [Dims.volume_eq_prod, Dims.volume_eq_prod, h.prod_eq]

theorem Dims.length_walk (dims : List Nat) (n : Nat) (index : List Nat) :
    (Dims.walk dims n index).length = n := by
  induction n generalizing index with
  | zero => rfl
  | succ n ih => rw [Dims.walk, List.length_cons, ih]

theorem Size.check_eq_ok {n m : Nat} : Size.check n = .ok m ↔ n < Size.limit ∧ m = n := by
  unfold Size.check
  split
  · next h => simp [h, eq_comm]
  · next h => simp [h]

theorem Size.foldlM_mul_eq_ok {dims : List Nat} {a n : Nat} (ha : a < limit) :
    dims.foldlM Size.mul a = .ok n ↔
      n = a * Dims.volume dims ∧ ∀ k, a * Dims.volume (dims.take k) < limit := by
  induction dims generalizing a with
  | nil =>
      simp only [List.foldlM_nil, Outcome.pure_eq, Except.ok.injEq, List.take_nil, Dims.volume,
        Nat.mul_one, ha, implies_true, and_true]
      exact eq_comm
  | cons d ds ih =>
      rw [List.foldlM_cons, Outcome.bind_eq_ok]
      constructor
      · rintro ⟨b, hb, h⟩
        obtain ⟨hlt, rfl⟩ := Size.check_eq_ok.1 hb
        obtain ⟨rfl, hrest⟩ := (ih hlt).1 h
        refine ⟨Nat.mul_assoc _ _ _, ?_⟩
        intro k
        cases k with
        | zero => rwa [List.take_zero, Dims.volume, Nat.mul_one]
        | succ k =>
            rw [List.take_succ_cons, Dims.volume, ← Nat.mul_assoc]
            exact hrest k
      · rintro ⟨rfl, hall⟩
        have hrest : ∀ k, a * d * Dims.volume (ds.take k) < limit := by
          intro k
          have h := hall (k + 1)
          rwa [List.take_succ_cons, Dims.volume, ← Nat.mul_assoc] at h
        have hlt := hrest 0
        rw [List.take_zero, Dims.volume, Nat.mul_one] at hlt
        exact ⟨a * d, Size.check_eq_ok.2 ⟨hlt, rfl⟩, (ih hlt).2 ⟨(Nat.mul_assoc _ _ _).symm, hrest⟩⟩

/-- A product exists if a machine word holds it at every step, and it is exact then. -/
theorem Size.product_eq_ok {dims : List Nat} {n : Nat} :
    Size.product dims = .ok n ↔
      n = Dims.volume dims ∧ ∀ k, Dims.volume (dims.take k) < limit := by
  have hone : 1 < limit := by decide
  unfold product
  simp only [Size.foldlM_mul_eq_ok hone, Nat.one_mul]

namespace Tensor

variable {t u a b bias : Tensor} {axes : List Nat} {axis : Nat}

instance (t : Tensor) : Decidable t.WellFormed :=
  inferInstanceAs (Decidable (t.data.length = Dims.volume t.dims))

/-! ## Elements replaced one by one -/

theorem WellFormed.map (ht : t.WellFormed) (f : Single → Single) : (t.map f).WellFormed := by
  unfold WellFormed Tensor.map
  rw [List.length_map]
  exact ht

/-- Two tensors of the same dimensions have the same number of elements, and a single element takes
the dimensions of the other tensor. -/
theorem WellFormed.zipWith {f : Single → Single → Single} (ha : a.WellFormed) (hb : b.WellFormed)
    (h : a.zipWith f b = .ok u) : u.WellFormed := by
  unfold Tensor.zipWith at h
  split at h
  · next hdims =>
    cases h
    unfold WellFormed at ha hb ⊢
    rw [List.length_zipWith, hb, ← hdims, ← ha, Nat.min_self]
  · split at h
    · cases h
      exact ha.map _
    · cases h
      exact hb.map _
    · cases h

theorem WellFormed.addBias (ht : t.WellFormed) (h : t.addBias bias axis = .ok u) :
    u.WellFormed := by
  unfold Tensor.addBias at h
  split at h
  · cases h
  · dsimp only at h
    obtain ⟨-, h⟩ := Failure.of_guard h
    obtain ⟨stride, -, h⟩ := Outcome.bind_eq_ok.1 h
    obtain ⟨data, hdata, h⟩ := Outcome.bind_eq_ok.1 h
    cases h
    show data.length = Dims.volume t.dims
    rw [Outcome.length_of_mapM hdata, List.length_zipIdx]
    exact ht

/-! ## Axes permuted -/

theorem perm_range_of_nodup {rank : Nat} (hl : axes.length = rank) (hlt : ∀ i ∈ axes, i < rank)
    (hd : axes.Nodup) : axes.Perm (List.range rank) := by
  refine (hd.subperm fun i hi => List.mem_range.2 (hlt i hi)).perm_of_length_le ?_
  exact Nat.le_of_eq (List.length_range.trans hl.symm)

theorem map_getD_range (dims : List Nat) :
    (List.range dims.length).map (dims.getD · 0) = dims := by
  apply List.ext_getElem
  · simp
  · intro i hi hi'
    simp [hi']

theorem volume_permuted {dims : List Nat} (h : axes.Perm (List.range dims.length)) :
    Dims.volume (axes.map (dims.getD · 0)) = Dims.volume dims := by
  have hp := h.map (dims.getD · 0)
  rw [map_getD_range] at hp
  exact Dims.volume_eq_of_perm hp

/-- The result of a transposition has the dimensions of the tensor in the given order, and as many
elements as the tensor. -/
theorem transpose_eq_ok (h : t.transpose axes = .ok u) :
    axes.Perm (List.range t.dims.length) ∧ u.dims = axes.map (t.dims.getD · 0) ∧
      u.data.length = t.data.length := by
  unfold Tensor.transpose at h
  dsimp only at h
  obtain ⟨hl, h⟩ := Failure.of_guard h
  obtain ⟨haxes, h⟩ := Failure.of_guard h
  obtain ⟨strides, -, h⟩ := Outcome.bind_eq_ok.1 h
  obtain ⟨data, hdata, h⟩ := Outcome.bind_eq_ok.1 h
  cases h
  rw [not_not, List.all_eq_true] at haxes
  have hlength := Outcome.length_of_mapM hdata
  rw [Dims.length_walk] at hlength
  refine ⟨perm_range_of_nodup (not_not.1 hl) ?_ haxes.2, rfl, hlength⟩
  exact fun i hi => of_decide_eq_true (haxes.1 i hi)

theorem WellFormed.transpose (ht : t.WellFormed) (h : t.transpose axes = .ok u) :
    u.WellFormed := by
  obtain ⟨hperm, hdims, hlength⟩ := transpose_eq_ok h
  unfold WellFormed
  rw [hlength, hdims, volume_permuted hperm]
  exact ht

end Tensor

/-! ## Convolution -/

/-- The sums are as many as the product of the output dimensions, which had to fit a word. -/
theorem Convolution.product_of_apply {c : Convolution} {image u : Tensor}
    (h : c.apply image = .ok u) : Size.product u.dims = .ok u.data.length := by
  unfold apply at h
  split at h
  · split at h
    · dsimp only at h
      obtain ⟨-, h⟩ := Failure.of_guard h
      obtain ⟨-, h⟩ := Failure.of_guard h
      obtain ⟨spanHeight, -, h⟩ := Outcome.bind_eq_ok.1 h
      obtain ⟨spanWidth, -, h⟩ := Outcome.bind_eq_ok.1 h
      obtain ⟨roomHeight, -, h⟩ := Outcome.bind_eq_ok.1 h
      obtain ⟨-, h⟩ := Failure.of_guard h
      obtain ⟨roomWidth, -, h⟩ := Outcome.bind_eq_ok.1 h
      obtain ⟨-, h⟩ := Failure.of_guard h
      obtain ⟨total, htotal, h⟩ := Outcome.bind_eq_ok.1 h
      obtain ⟨_, -, h⟩ := Outcome.bind_eq_ok.1 h
      obtain ⟨data, hdata, h⟩ := Outcome.bind_eq_ok.1 h
      cases h
      rw [Array.length_toList, size_of_fill (Failure.lift_eq_ok.1 hdata), Array.size_replicate]
      exact Failure.lift_eq_ok.1 htotal
    · cases h
  · cases h

theorem Convolution.wellFormed_apply {c : Convolution} {image u : Tensor}
    (h : c.apply image = .ok u) : u.WellFormed :=
  (Size.product_eq_ok.1 (product_of_apply h)).1

/-! ## Values -/

theorem Value.WellFormed.element {v : Value} (hv : v.WellFormed) {i : Nat} {t : Tensor}
    (h : v.element i = .ok t) : t.WellFormed := by
  cases v with
  | tensor u =>
      unfold Value.element at h
      dsimp only at h
      split at h
      · cases h
        exact hv
      · cases h
  | tuple items =>
      unfold Value.element at h
      dsimp only at h
      split at h
      · next u hu =>
        cases h
        exact hv _ (List.mem_of_getElem? hu)
      · cases h

end Dataflow
