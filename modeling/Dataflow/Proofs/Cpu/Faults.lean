import Dataflow.Proofs.Cpu.WellFormed
import Dataflow.Proofs.Tensor.Faults

/-!
# Where the reference backend stops

Whatever the attributes of a node and the dimensions of tensors, an operation of the reference
backend ends in a value or in an error that says what is wrong, unless its kernel adds a bias,
transposes or convolves and the tensor operation overruns the machine sizes. For these three the
dimensions of the input and the constants of the kernel decide it; the other kernels do not compute
with sizes.
-/

namespace Dataflow

open Failure

/-- Every tensor in the value is one that can be made of its dimensions and its elements. -/
def Value.Accepted : Value → Prop
  | tensor t => t.Accepted
  | tuple items => ∀ t ∈ items, t.Accepted

namespace Kernel

/-- The inputs for which a kernel stops. -/
def Overruns (k : Kernel) (inputs : List Value) : Prop :=
  match k with
  | biasAdd axis bias => ∃ t, inputs = [.tensor t] ∧ t.BiasOverruns bias axis
  | transpose axes => ∃ t, inputs = [.tensor t] ∧ t.TransposeOverruns axes
  | convolution spec => ∃ t, inputs = [.tensor t] ∧
      (spec.Overruns t ∨ ∃ bias, spec.bias = some bias ∧ spec.BiasOverruns t bias)
  | _ => False

/-- The inputs for which calibration stops. -/
def CalibrationOverruns (k : Kernel) (inputs : List Value) : Prop :=
  match k with
  | convolution spec => ∃ t, inputs = [.tensor t] ∧ spec.Overruns t
  | _ => False

/-! ## Inputs -/

variable {k : Kernel} {opType name : String} {inputs : List Value} {α : Type}

theorem not_stops_value (x : Except ValueError α) :
    ¬Stops (x.mapError fun e => Failure.error (KernelError.value e)) := by
  cases x with
  | ok a => exact not_stops_ok a
  | error e => exact not_stops_refuse _

theorem not_stops_asTensor (v : Value) : ¬Stops (asTensor v) := not_stops_value _

theorem not_stops_one : ¬Stops (one opType name inputs) := by
  unfold one
  split
  · exact not_stops_ok _
  · exact not_stops_refuse _

theorem not_stops_two : ¬Stops (two opType name inputs) := by
  unfold two
  split
  · exact not_stops_ok _
  · exact not_stops_refuse _

theorem stops_oneTensor_bind {f : Tensor → Except (Failure KernelError) α} :
    Stops (oneTensor opType name inputs >>= f) ↔ ∃ t, inputs = [.tensor t] ∧ Stops (f t) := by
  have hone : ¬Stops (oneTensor opType name inputs) := by
    unfold oneTensor
    rw [stops_bind]
    rintro (h | ⟨v, -, h⟩)
    · exact not_stops_one h
    · exact not_stops_asTensor v h
  rw [stops_bind, or_iff_right hone]
  simp only [oneTensor_eq_ok]

theorem stops_map_ok {x : Except (Failure KernelError) α} {β : Type} {f : α → β} :
    Stops (x >>= fun a => .ok (f a)) ↔ Stops x := by
  rw [stops_bind, or_iff_left]
  rintro ⟨a, -, h⟩
  exact not_stops_ok _ h

theorem not_stops_combine (f : Single → Single → Single) :
    ¬Stops (combine f opType name inputs) := by
  unfold combine
  rw [stops_bind]
  rintro (h | ⟨⟨v, w⟩, -, h⟩)
  · exact not_stops_two h
  · rcases stops_bind.1 h with h | ⟨a, -, h⟩
    · exact not_stops_asTensor v h
    · rcases stops_bind.1 h with h | ⟨b, -, h⟩
      · exact not_stops_asTensor w h
      · exact Tensor.not_stops_zipWith f (stops_mapError.1 (stops_map_ok.1 h))

/-! ## Kernels -/

/-- A kernel with constants that can be made stops for inputs that can be made exactly where it
overruns them. -/
theorem stops_forward_iff (hc : ∀ t ∈ k.constants, t.Accepted) (hi : ∀ v ∈ inputs, v.Accepted) :
    Stops (k.forward opType name inputs) ↔ k.Overruns inputs := by
  have hinput : ∀ {t}, inputs = [.tensor t] → t.Accepted := by
    rintro t rfl
    exact hi _ (List.mem_singleton_self _)
  cases k with
  | input declared =>
      refine stops_oneTensor_bind.trans ⟨?_, False.elim⟩
      rintro ⟨t, -, h⟩
      split at h
      · exact not_stops_ok _ h
      · exact not_stops_refuse _ h
  | constant value => exact ⟨not_stops_ok _, False.elim⟩
  | add => exact ⟨not_stops_combine _, False.elim⟩
  | multiply => exact ⟨not_stops_combine _, False.elim⟩
  | relu =>
      refine stops_oneTensor_bind.trans ⟨?_, False.elim⟩
      rintro ⟨t, -, h⟩
      exact not_stops_ok _ h
  | identity => exact ⟨not_stops_one, False.elim⟩
  | biasAdd axis bias =>
      refine stops_oneTensor_bind.trans (exists_congr fun t => and_congr_right fun ht => ?_)
      rw [← Tensor.stops_addBias_iff (hinput ht).wellFormed]
      exact stops_map_ok.trans stops_mapError
  | transpose axes =>
      refine stops_oneTensor_bind.trans (exists_congr fun t => and_congr_right fun ht => ?_)
      rw [← Tensor.stops_transpose_iff (hinput ht).wellFormed]
      exact stops_map_ok.trans stops_mapError
  | element index =>
      refine ⟨fun h => ?_, False.elim⟩
      rcases stops_bind.1 h with h | ⟨v, -, h⟩
      · exact not_stops_one h
      · exact not_stops_value _ (stops_map_ok.1 h)
  | tuple =>
      refine ⟨fun h => ?_, False.elim⟩
      obtain ⟨fault, h⟩ := stops_map_ok.1 h
      obtain ⟨v, -, hv⟩ := Outcome.exists_of_mapM_eq_error h
      exact not_stops_asTensor v ⟨fault, hv⟩
  | convolution spec =>
      have hweights := hc _ List.mem_cons_self
      refine stops_oneTensor_bind.trans (exists_congr fun t => and_congr_right fun ht => ?_)
      rw [← Convolution.stops_apply_iff (hinput ht) hweights.wellFormed, stops_bind]
      refine or_congr stops_mapError ?_
      simp only [lift_eq_ok, ← Convolution.stops_addBias_apply_iff (hinput ht) hweights.wellFormed]
      cases spec.bias with
      | none =>
          constructor
          · rintro ⟨sums, -, h⟩
            exact absurd h (not_stops_ok _)
          · rintro ⟨bias, h, -⟩
            cases h
      | some bias =>
          simp only [Option.some.injEq, exists_eq_left']
          exact exists_congr fun sums => and_congr_right fun _ => stops_map_ok.trans stops_mapError

/-- Calibration looks at the sums of a convolution. -/
theorem stops_calibration_iff (hc : ∀ t ∈ k.constants, t.Accepted)
    (hi : ∀ v ∈ inputs, v.Accepted) :
    Stops (k.calibration opType name inputs) ↔ k.CalibrationOverruns inputs := by
  cases k with
  | convolution spec =>
      refine stops_oneTensor_bind.trans (exists_congr fun t => and_congr_right ?_)
      rintro rfl
      have hweights := hc _ List.mem_cons_self
      have ht := hi _ (List.mem_singleton_self _)
      rw [← Convolution.stops_apply_iff ht hweights.wellFormed]
      exact stops_map_ok.trans stops_mapError
  | _ => exact ⟨not_stops_ok _, False.elim⟩

end Kernel

/-! ## Lowered nodes -/

namespace Cpu

variable {n : Node} {shape : String → Option Shapes} {params : Dict Tensor} {batch : Int}
  {o : Operation}

theorem exists_choice_of_handler {t : String} {h : Handler} (hm : (t, h) ∈ handlers)
    (ho : h n shape params batch = .ok o) :
    ∃ choose k, (t, choose) ∈ kernels ∧ choose n params batch = some k ∧
      ∃ reads S, o = Kernel.operation k n reads S := by
  simp only [handlers, List.mem_cons, Prod.mk.injEq, List.not_mem_nil, or_false] at hm
  rcases hm with ⟨rfl, rfl⟩ | ⟨rfl, rfl⟩ | ⟨rfl, rfl⟩ | ⟨rfl, rfl⟩ | ⟨rfl, rfl⟩ | ⟨rfl, rfl⟩ |
    ⟨rfl, rfl⟩ | ⟨rfl, rfl⟩ | ⟨rfl, rfl⟩ | ⟨rfl, rfl⟩ | ⟨rfl, rfl⟩ | ⟨rfl, rfl⟩ | ⟨rfl, rfl⟩
  · obtain ⟨s, hs, rfl⟩ := input_eq_ok.1 ho
    exact ⟨inputKernel, _, by simp [kernels], by rw [inputKernel, hs]; rfl, _, _, rfl⟩
  · obtain ⟨s, hs, rfl⟩ := input_eq_ok.1 ho
    exact ⟨inputKernel, _, by simp [kernels], by rw [inputKernel, hs]; rfl, _, _, rfl⟩
  · obtain ⟨value, hk, rfl⟩ := constant_eq_ok ho
    exact ⟨constantKernel, _, by simp [kernels], hk, _, _, rfl⟩
  · exact ⟨always .add, _, by simp [kernels], rfl, _, _, binary_eq_ok ho⟩
  · exact ⟨always .add, _, by simp [kernels], rfl, _, _, binary_eq_ok ho⟩
  · exact ⟨always .multiply, _, by simp [kernels], rfl, _, _, binary_eq_ok ho⟩
  · exact ⟨always .relu, _, by simp [kernels], rfl, _, _, unary_eq_ok ho⟩
  · exact ⟨always .identity, _, by simp [kernels], rfl, _, _, unary_eq_ok ho⟩
  · obtain ⟨k, hk, rfl⟩ := biasAdd_eq_ok ho
    exact ⟨biasAddKernel, k, by simp [kernels], hk, _, _, rfl⟩
  · obtain ⟨k, hk, rfl⟩ := transpose_eq_ok ho
    exact ⟨transposeKernel, k, by simp [kernels], hk, _, _, rfl⟩
  · obtain ⟨index, hi, source, -, rfl⟩ := accessor_eq_ok.1 ho
    exact ⟨accessorKernel, _, by simp [kernels], by rw [accessorKernel, hi]; rfl, _, _, rfl⟩
  · obtain ⟨items, -, rfl⟩ := tuple_eq_ok.1 ho
    exact ⟨always .tuple, _, by simp [kernels], rfl, _, _, rfl⟩
  · obtain ⟨k, hk, rfl⟩ := convolution_eq_ok ho
    exact ⟨convolutionKernel, k, by simp [kernels], hk, _, _, rfl⟩

/-- An operation that the backend makes of a node applies the kernel that is chosen for the type.
Where all tensors can be made of their dimensions and elements, it stops exactly where the kernel
overruns its inputs, and so does its calibration. Everywhere else both end in a value or an
error. -/
theorem stops_iff_overruns {t : String} {l : Lowering} {os : List Operation}
    (hl : table.get? t = some l) (hos : l n shape params batch = .ok os) (ho : o ∈ os)
    (hdata : ∀ d ∈ n.data, d.Accepted) (hparams : ∀ x ∈ params.entries, x.2.Accepted) :
    ∃ choose k, (t, choose) ∈ kernels ∧ choose n params batch = some k ∧
      ∀ inputs : List Value, (∀ v ∈ inputs, v.Accepted) →
        (Stops (o.forward inputs) ↔ k.Overruns inputs) ∧
          (Stops (o.calibration inputs) ↔ k.CalibrationOverruns inputs) := by
  obtain ⟨h, hm, rfl⟩ := table_get?.1 hl
  obtain ⟨o', hok, rfl⟩ := lowering_eq_ok.1 hos
  obtain rfl := List.mem_singleton.1 ho
  obtain ⟨choose, k, hchoose, hk, reads, S, rfl⟩ := exists_choice_of_handler hm hok
  have hc : ∀ c ∈ k.constants, c.Accepted := by
    intro c hmem
    rcases supplied_kernels _ hchoose hk c hmem with hd | ⟨i, hget⟩
    · exact hdata c hd
    · exact hparams _ (Dict.mem_of_lookup_eq_some hget)
  refine ⟨choose, k, hchoose, hk, fun inputs hi => ⟨?_, ?_⟩⟩
  · exact stops_mapError.trans (Kernel.stops_forward_iff hc hi)
  · exact stops_mapError.trans (Kernel.stops_calibration_iff hc hi)

def edge : Node :=
  { name := "c", types := ["Convolution"], shapes := .tensor ⟨[1, 1, 1, 1]⟩, bottoms := ["x"],
    data := [⟨[1, 1, 1, 2], [⟨0x3F800000⟩, ⟨0x40000000⟩]⟩] }

/-- The kernel of the node is laid over an image of its own size. -/
theorem not_stops_edge : ∃ l os o, table.get? "Convolution" = some l ∧
    l edge (fun _ => none) .empty Program.openBatch = .ok os ∧ o ∈ os ∧
      (∀ d ∈ edge.data, d.Accepted) ∧
        (∀ x ∈ (Dict.empty : Dict Tensor).entries, x.2.Accepted) ∧
          ¬Stops (o.forward [.tensor ⟨[1, 1, 1, 2], [⟨0⟩, ⟨0⟩]⟩]) := by
  let spec : Convolution :=
    ⟨⟨[1, 1, 1, 2], [⟨0x3F800000⟩, ⟨0x40000000⟩]⟩, none, (1, 1), (0, 0), (1, 1)⟩
  have hl : table.get? "Convolution" = some (Handler.lowering convolution) :=
    table_get?.2 ⟨convolution, by simp [handlers, Operation.calibratedType], rfl⟩
  have hos : Handler.lowering convolution edge (fun _ => none) .empty Program.openBatch =
      .ok [(Kernel.convolution spec).operation edge ["x"] edge.shapes] := rfl
  have ho := List.mem_singleton_self ((Kernel.convolution spec).operation edge ["x"] edge.shapes)
  have hdata : ∀ d ∈ edge.data, d.Accepted := by decide
  have hparams : ∀ x ∈ (Dict.empty : Dict Tensor).entries, x.2.Accepted := by
    intro x hx
    cases hx
  refine ⟨_, _, _, hl, hos, ho, hdata, hparams, ?_⟩
  obtain ⟨choose, k, hchoose, hk, h⟩ := stops_iff_overruns hl hos ho hdata hparams
  have hchoose : choose = convolutionKernel := by
    simpa [kernels, Operation.calibratedType, Node.accessorType] using hchoose
  subst hchoose
  obtain rfl : Kernel.convolution spec = k := Option.some.inj hk
  have himage : ∀ v ∈ [Value.tensor ⟨[1, 1, 1, 2], [⟨0⟩, ⟨0⟩]⟩], v.Accepted := by
    rw [List.forall_mem_singleton]
    show Tensor.Accepted _
    decide
  rw [(h _ himage).1]
  rintro ⟨t, ht, hover | ⟨bias, hbias, -⟩⟩
  · cases ht
    obtain ⟨_, _, _, _, _, ⟨_, _, _, _, hi, hw, -, rfl, rfl⟩, hstuck⟩ := hover
    cases hi
    cases hw
    exact Convolution.not_stuck (by decide) (by decide) (by decide) (by decide) hstuck
  · cases hbias

def hollow : Node :=
  { name := "c", types := ["Convolution"], shapes := .tensor ⟨[1, 1, 1, 1]⟩, bottoms := ["x"],
    data := [⟨[1, 1, 0, 1], []⟩] }

/-- All tensors can be made and the node is lowered, but to measure the kernel takes one from
zero. -/
theorem forward_hollow : (∀ d ∈ hollow.data, d.Accepted) ∧
    (⟨[1, 1, 1, 1], [⟨0⟩]⟩ : Tensor).Accepted ∧
      ((table.get? "Convolution").map fun l =>
        (l hollow (fun _ => none) .empty Program.openBatch).map fun os =>
          os.map fun o => o.forward [.tensor ⟨[1, 1, 1, 1], [⟨0⟩]⟩]) =
        some (.ok [stop .overflow]) := by
  refine ⟨by decide, by decide, ?_⟩
  decide +kernel

end Cpu

end Dataflow
