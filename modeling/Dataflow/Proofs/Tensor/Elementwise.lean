import Dataflow.Cpu.Kernel
import Dataflow.Proofs.Tensor.Indices

/-!
# Elementwise combination

Two tensors are combined element by element if they have the same dimensions or if one of them holds
a single element, which then meets every element of the other one. Which of the two stands on the
left matters little where the function is commutative, as sums and products of single precision
numbers are: the tensors can be combined either way or not at all, and both ways give the same
elements.

Only the dimensions may tell the two ways apart. A single element on the right is spread over the
tensor on the left before the one on the left is looked at, so of two single elements the left one
gives its dimensions to the result.
-/

namespace Dataflow

/-! ## Commutative functions -/

section

open Float.Model

variable {spec : Format}

theorem unpackedAdd_comm (x y : UnpackedFloat) :
    UnpackedFloat.add spec x y = UnpackedFloat.add spec y x := by
  cases x with
  | notANumber => cases y <;> rfl
  | infinity s =>
      cases y with
      | infinity t => cases s <;> cases t <;> rfl
      | notANumber => rfl
      | zero t => rfl
      | finite t n e hn => rfl
  | zero s =>
      cases y with
      | zero t => cases s <;> cases t <;> rfl
      | notANumber => rfl
      | infinity t => rfl
      | finite t n e hn => rfl
  | finite s m d hm =>
      cases y with
      | finite t n e hn =>
          -- both mantissas are taken to the smaller exponent and added as integers
          dsimp only [UnpackedFloat.add]
          rw [Int.min_comm d e, Int.add_comm]
      | notANumber => rfl
      | infinity t => rfl
      | zero t => rfl

theorem unpackedMul_comm (x y : UnpackedFloat) :
    UnpackedFloat.mul spec x y = UnpackedFloat.mul spec y x := by
  have hsign : ∀ s t : UnpackedFloat.Sign, s * t = t * s := by
    intro s t
    cases s <;> cases t <;> rfl
  cases x with
  | notANumber => cases y <;> rfl
  | infinity s =>
      cases y with
      | infinity t => exact congrArg UnpackedFloat.infinity (hsign s t)
      | finite t n e hn => exact congrArg UnpackedFloat.infinity (hsign s t)
      | notANumber => rfl
      | zero t => rfl
  | zero s =>
      cases y with
      | zero t => exact congrArg UnpackedFloat.zero (hsign s t)
      | finite t n e hn => exact congrArg UnpackedFloat.zero (hsign s t)
      | notANumber => rfl
      | infinity t => rfl
  | finite s m d hm =>
      cases y with
      | finite t n e hn =>
          dsimp only [UnpackedFloat.mul]
          rw [hsign s t, Nat.mul_comm m n, Int.add_comm d e]
      | infinity t => exact congrArg UnpackedFloat.infinity (hsign s t)
      | zero t => exact congrArg UnpackedFloat.zero (hsign s t)
      | notANumber => rfl

end

namespace Single

protected theorem add_comm (x y : Single) : x + y = y + x := by
  show ofFloat32 ⟨.pack (.add _ _ _)⟩ = ofFloat32 ⟨.pack (.add _ _ _)⟩
  rw [unpackedAdd_comm]

protected theorem mul_comm (x y : Single) : x * y = y * x := by
  show ofFloat32 ⟨.pack (.mul _ _ _)⟩ = ofFloat32 ⟨.pack (.mul _ _ _)⟩
  rw [unpackedMul_comm]

end Single

namespace Tensor

variable {f : Single → Single → Single} {a b : Tensor} {x y : Single}

/-! ## Pairs of tensors -/

def Combinable (a b : Tensor) : Prop := a.dims = b.dims ∨ a.size = 1 ∨ b.size = 1

theorem Combinable.symm (h : Combinable a b) : Combinable b a := by
  rcases h with h | h | h
  · exact Or.inl h.symm
  · exact Or.inr (Or.inr h)
  · exact Or.inr (Or.inl h)

theorem exists_of_size_eq_one {t : Tensor} (h : t.size = 1) : ∃ x, t.data = [x] :=
  List.length_eq_one_iff.1 h

theorem zipWith_of_dims (h : a.dims = b.dims) :
    a.zipWith f b = .ok ⟨a.dims, List.zipWith f a.data b.data⟩ := by
  rw [zipWith, if_pos h]

/-- A single element on the right is spread over the tensor on the left. -/
theorem zipWith_of_right (h : a.dims ≠ b.dims) (hb : b.data = [y]) :
    a.zipWith f b = .ok (a.map fun x => f x y) := by
  rw [zipWith, if_neg h, hb]

/-- A single element on the left is spread over a tensor on the right with more or fewer. -/
theorem zipWith_of_left (h : a.dims ≠ b.dims) (ha : a.data = [x]) (hb : b.size ≠ 1) :
    a.zipWith f b = .ok (b.map fun y => f x y) := by
  rw [zipWith, if_neg h, ha]
  split
  · next y hy => exact absurd (congrArg List.length hy) hb
  · next x' hx _ => cases hx; rfl
  · next hx _ => exact absurd rfl (hx x)

theorem zipWith_of_not_combinable (h : ¬Combinable a b) :
    a.zipWith f b = Failure.refuse (.incompatible a.dims b.dims) := by
  rw [Combinable, not_or, not_or] at h
  obtain ⟨hdims, ha, hb⟩ := h
  rw [zipWith, if_neg hdims]
  split
  · next y hy => exact absurd (congrArg List.length hy) hb
  · next x hx _ => exact absurd (congrArg List.length hx) ha
  · rfl

theorem exists_zipWith_eq_ok (h : Combinable a b) : ∃ u, a.zipWith f b = .ok u := by
  by_cases hdims : a.dims = b.dims
  · exact ⟨_, zipWith_of_dims hdims⟩
  · by_cases hb : b.size = 1
    · obtain ⟨y, hy⟩ := exists_of_size_eq_one hb
      exact ⟨_, zipWith_of_right hdims hy⟩
    · obtain ⟨x, hx⟩ := exists_of_size_eq_one ((h.resolve_left hdims).resolve_right hb)
      exact ⟨_, zipWith_of_left hdims hx hb⟩

/-- Of two single elements the left one gives its dimensions to the result. -/
theorem zipWith_of_singles (ha : a.data = [x]) (hb : b.data = [y]) :
    a.zipWith f b = .ok ⟨a.dims, [f x y]⟩ := by
  by_cases hdims : a.dims = b.dims
  · rw [zipWith_of_dims hdims, ha, hb]
    rfl
  · rw [zipWith_of_right hdims hb, Tensor.map, ha]
    rfl

/-! ## The other way round -/

section

variable (hf : ∀ x y, f x y = f y x)

include hf

theorem zipWith_swap_of_dims (h : a.dims = b.dims) : b.zipWith f a = a.zipWith f b := by
  have hdata : List.zipWith f b.data a.data = List.zipWith f a.data b.data := by
    rw [List.zipWith_comm]
    exact congrArg (List.zipWith · a.data b.data) (funext₂ fun x y => hf y x)
  rw [zipWith_of_dims h, zipWith_of_dims h.symm, hdata, h]

theorem zipWith_swap_of_right (h : a.dims ≠ b.dims) (hb : b.data = [y]) (ha : a.size ≠ 1) :
    b.zipWith f a = a.zipWith f b := by
  have hflip : (fun x => f y x) = fun x => f x y := funext (hf y)
  rw [zipWith_of_right h hb, zipWith_of_left h.symm hb ha, hflip]

/-- Unless there are two single elements, the results are the same in dimensions as well. -/
theorem zipWith_swap (hab : Combinable a b) (hone : ¬(a.size = 1 ∧ b.size = 1)) :
    b.zipWith f a = a.zipWith f b := by
  by_cases hdims : a.dims = b.dims
  · exact zipWith_swap_of_dims hf hdims
  · rcases hab.resolve_left hdims with ha | hb
    · obtain ⟨x, hx⟩ := exists_of_size_eq_one ha
      exact (zipWith_swap_of_right hf (Ne.symm hdims) hx fun hb => hone ⟨ha, hb⟩).symm
    · obtain ⟨y, hy⟩ := exists_of_size_eq_one hb
      exact zipWith_swap_of_right hf hdims hy fun ha => hone ⟨ha, hb⟩

end

theorem forward_swap {k : Kernel} (hk : k = .add ∨ k = .multiply) (opType name : String)
    (hab : Combinable a b) (hone : ¬(a.size = 1 ∧ b.size = 1)) :
    k.forward opType name [.tensor b, .tensor a] =
      k.forward opType name [.tensor a, .tensor b] := by
  have hcombine : ∀ f : Single → Single → Single, (∀ x y, f x y = f y x) →
      Kernel.combine f opType name [.tensor b, .tensor a] =
        Kernel.combine f opType name [.tensor a, .tensor b] := by
    intro f hf
    show (do return Value.tensor (← Kernel.lift (b.zipWith f a))) =
      (do return Value.tensor (← Kernel.lift (a.zipWith f b)))
    rw [zipWith_swap hf hab hone]
  rcases hk with rfl | rfl
  · exact hcombine _ Single.add_comm
  · exact hcombine _ Single.mul_comm

/-- Two tensors can be combined either way or not at all. A commutative function gives the same
elements both ways, under the same dimensions unless both tensors hold a single element. Then the
dimensions are those of the tensor on the left. -/
theorem zipWith_swap_cases (hf : ∀ x y, f x y = f y x) (a b : Tensor) :
    (¬Combinable a b ∧ a.zipWith f b = Failure.refuse (.incompatible a.dims b.dims) ∧
      b.zipWith f a = Failure.refuse (.incompatible b.dims a.dims)) ∨
    (Combinable a b ∧ ∃ u v, a.zipWith f b = .ok u ∧ b.zipWith f a = .ok v ∧ u.data = v.data ∧
      (u.dims = v.dims ∨ a.size = 1 ∧ b.size = 1) ∧
      (a.size = 1 → b.size = 1 → u.dims = a.dims ∧ v.dims = b.dims)) := by
  by_cases hab : Combinable a b
  · refine Or.inr ⟨hab, ?_⟩
    by_cases hone : a.size = 1 ∧ b.size = 1
    · obtain ⟨x, hx⟩ := exists_of_size_eq_one hone.1
      obtain ⟨y, hy⟩ := exists_of_size_eq_one hone.2
      refine ⟨_, _, zipWith_of_singles hx hy, zipWith_of_singles hy hx, ?_, Or.inr hone, ?_⟩
      · show [f x y] = [f y x]
        rw [hf x y]
      · exact fun _ _ => ⟨rfl, rfl⟩
    · obtain ⟨u, hu⟩ := exists_zipWith_eq_ok hab
      have hv := zipWith_swap hf hab hone
      rw [hu] at hv
      exact ⟨u, u, hu, hv, rfl, Or.inl rfl, fun ha hb => absurd ⟨ha, hb⟩ hone⟩
  · exact Or.inl ⟨hab, zipWith_of_not_combinable hab,
      zipWith_of_not_combinable fun h => hab h.symm⟩

def lone : Tensor := ⟨[1], [.one]⟩

def couple : Tensor := ⟨[2], [.one, .zero]⟩

theorem zipWith_swap_couple :
    (∀ x y : Single, x + y = y + x) ∧ ∃ u v, couple.zipWith (· + ·) lone = .ok u ∧
      lone.zipWith (· + ·) couple = .ok v ∧ u.data = v.data ∧ u.dims = v.dims ∧
        u = ⟨[2], [⟨0x40000000⟩, .one]⟩ := by
  have h : couple.zipWith (· + ·) lone = .ok ⟨[2], [⟨0x40000000⟩, .one]⟩ := by decide +kernel
  rcases zipWith_swap_cases Single.add_comm couple lone with
    ⟨-, hrefuse, -⟩ | ⟨-, u, v, hu, hv, hdata, hdims, -⟩
  · rw [h] at hrefuse
    cases hrefuse
  · refine ⟨Single.add_comm, u, v, hu, hv, hdata, hdims.resolve_right (by decide), ?_⟩
    rw [h] at hu
    exact (Except.ok.inj hu).symm

/-- The two results for two single elements differ in rank. -/
theorem zipWith_lone_scalar :
    lone.Accepted ∧ (scalar .one).Accepted ∧ (∀ x y : Single, x + y = y + x) ∧
      ∃ u v, lone.zipWith (· + ·) (scalar .one) = .ok u ∧
        (scalar .one).zipWith (· + ·) lone = .ok v ∧ u.data = v.data ∧ u.dims ≠ v.dims := by
  have hu : lone.zipWith (· + ·) (scalar .one) = .ok ⟨[1], [⟨0x40000000⟩]⟩ := by decide +kernel
  have hv : (scalar .one).zipWith (· + ·) lone = .ok ⟨[], [⟨0x40000000⟩]⟩ := by decide +kernel
  exact ⟨by decide +kernel, by decide +kernel, Single.add_comm, _, _, hu, hv, rfl, by decide⟩

end Tensor

end Dataflow
