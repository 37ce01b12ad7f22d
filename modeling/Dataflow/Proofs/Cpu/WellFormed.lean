import Dataflow.Proofs.Program.WellFormed
import Dataflow.Proofs.Tensor.WellFormed

/-!
# Well-formed values in the reference backend

If the tensors that go into a program of the reference backend are well formed, so are all values
that it computes. A kernel returns well-formed values for such if its constants are well formed, and
the constants of the kernel of a node are among the data of the node and the parameters.
-/

namespace Dataflow

/-! ## Kernels -/

namespace Kernel

def constants : Kernel → List Tensor
  | constant value => [value]
  | biasAdd _ bias => [bias]
  | convolution spec => spec.weights :: spec.bias.toList
  | _ => []

variable {k : Kernel} {opType name : String} {inputs : List Value} {t : Tensor} {v : Value}

variable (hi : ∀ x ∈ inputs, x.WellFormed)

include hi

theorem wellFormed_of_oneTensor (h : oneTensor opType name inputs = .ok t) : t.WellFormed := by
  rw [oneTensor_eq_ok] at h
  exact hi (.tensor t) (h ▸ List.mem_singleton_self _)

theorem wellFormed_combine {f : Single → Single → Single}
    (h : combine f opType name inputs = .ok v) : v.WellFormed := by
  obtain ⟨⟨x, y⟩, hxy, h⟩ := Outcome.bind_eq_ok.1 h
  obtain ⟨a, ha, h⟩ := Outcome.bind_eq_ok.1 h
  obtain ⟨b, hb, h⟩ := Outcome.bind_eq_ok.1 h
  obtain ⟨u, hu, h⟩ := Outcome.bind_eq_ok.1 h
  cases h
  obtain rfl := two_eq_ok.1 hxy
  obtain rfl := asTensor_eq_ok.1 ha
  obtain rfl := asTensor_eq_ok.1 hb
  obtain ⟨hwa, hwb, -⟩ := List.forall_mem_cons.1 hi |>.imp_right List.forall_mem_cons.1
  exact Tensor.WellFormed.zipWith hwa hwb (lift_eq_ok.1 hu)

theorem wellFormed_forward (hc : ∀ t ∈ k.constants, t.WellFormed)
    (h : k.forward opType name inputs = .ok v) : v.WellFormed := by
  cases k with
  | input declared =>
      obtain ⟨fed, hfed, h⟩ := Outcome.bind_eq_ok.1 h
      split at h
      · cases h
        exact wellFormed_of_oneTensor hi hfed
      · cases h
  | constant value =>
      cases h
      exact hc value (List.mem_singleton_self value)
  | add => exact wellFormed_combine hi h
  | multiply => exact wellFormed_combine hi h
  | relu =>
      obtain ⟨t, ht, h⟩ := Outcome.bind_eq_ok.1 h
      cases h
      exact (wellFormed_of_oneTensor hi ht).map _
  | identity =>
      obtain rfl := one_eq_ok.1 h
      exact hi v (List.mem_singleton_self v)
  | biasAdd axis bias =>
      obtain ⟨t, ht, h⟩ := Outcome.bind_eq_ok.1 h
      obtain ⟨u, hu, h⟩ := Outcome.bind_eq_ok.1 h
      cases h
      exact (wellFormed_of_oneTensor hi ht).addBias (lift_eq_ok.1 hu)
  | transpose axes =>
      obtain ⟨t, ht, h⟩ := Outcome.bind_eq_ok.1 h
      obtain ⟨u, hu, h⟩ := Outcome.bind_eq_ok.1 h
      cases h
      exact (wellFormed_of_oneTensor hi ht).transpose (lift_eq_ok.1 hu)
  | element index =>
      obtain ⟨w, hw, h⟩ := Outcome.bind_eq_ok.1 h
      obtain ⟨t, ht, h⟩ := Outcome.bind_eq_ok.1 h
      cases h
      obtain rfl := one_eq_ok.1 hw
      exact (hi w (List.mem_singleton_self w)).element (Outcome.mapError_eq_ok.1 ht)
  | tuple =>
      obtain ⟨items, hitems, h⟩ := Outcome.bind_eq_ok.1 h
      cases h
      intro t ht
      obtain ⟨x, hx, hxt⟩ := Outcome.exists_left_of_mem (Outcome.mapM_eq_ok.1 hitems) ht
      obtain rfl := asTensor_eq_ok.1 hxt
      exact hi _ hx
  | convolution spec =>
      obtain ⟨t, -, h⟩ := Outcome.bind_eq_ok.1 h
      obtain ⟨sums, hsums, h⟩ := Outcome.bind_eq_ok.1 h
      have hsums := Convolution.wellFormed_apply (lift_eq_ok.1 hsums)
      split at h
      · cases h
        exact hsums
      · obtain ⟨u, hu, h⟩ := Outcome.bind_eq_ok.1 h
        cases h
        exact hsums.addBias (lift_eq_ok.1 hu)

omit hi in
/-- What calibration looks at are the sums of a convolution. -/
theorem wellFormed_calibration (h : k.calibration opType name inputs = .ok (some v)) :
    v.WellFormed := by
  cases k with
  | convolution spec =>
      obtain ⟨t, -, h⟩ := Outcome.bind_eq_ok.1 h
      obtain ⟨sums, hsums, h⟩ := Outcome.bind_eq_ok.1 h
      cases h
      exact Convolution.wellFormed_apply (lift_eq_ok.1 hsums)
  | _ => cases h

omit hi in
theorem keepsWellFormed_operation (hc : ∀ t ∈ k.constants, t.WellFormed) (n : Node)
    (reads : List String) (S : Shapes) : (k.operation n reads S).KeepsWellFormed where
  forward hi h := wellFormed_forward hi hc (Outcome.mapError_eq_ok.1 h)
  calibration _ h := wellFormed_calibration (Outcome.mapError_eq_ok.1 h)

end Kernel

/-! ## The constants of lowered nodes -/

namespace Cpu

variable {n : Node} {params feed : Dict Tensor} {batch : Int} {k : Kernel} {t : Tensor}

/-- The tensor is among the data of the node, or it is a parameter. -/
def Given (n : Node) (params : Dict Tensor) (t : Tensor) : Prop :=
  t ∈ n.data ∨ ∃ i, params.get? i = some t

def Choice.Supplied (choose : Choice) : Prop :=
  ∀ {n params batch k}, choose n params batch = some k → ∀ t ∈ k.constants, Given n params t

theorem given_of_weight? {slot : Nat} {i : String} (h : weight? n slot params i = some t) :
    Given n params t := by
  unfold weight? at h
  rcases (Option.orElse_eq_some _ _ _).1 h with h | ⟨-, h⟩
  · exact Or.inl (List.mem_of_getElem? h)
  · exact Or.inr ⟨i, h⟩

theorem supplied_always (hk : k.constants = []) : Choice.Supplied (always k) := by
  intro n params batch k' h t ht
  obtain rfl := Option.some.inj h
  rw [hk] at ht
  cases ht

theorem supplied_input : Choice.Supplied inputKernel := by
  intro n params batch k h t ht
  obtain ⟨s, -, rfl⟩ := Option.map_eq_some_iff.1 h
  cases ht

theorem supplied_constant : Choice.Supplied constantKernel := by
  intro n params batch k h t ht
  obtain ⟨value, hw, rfl⟩ := Option.map_eq_some_iff.1 h
  obtain rfl := List.mem_singleton.1 ht
  exact given_of_weight? hw

theorem supplied_biasAdd : Choice.Supplied biasAddKernel := by
  intro n params batch k h t ht
  obtain ⟨bias, hw, h⟩ := Option.bind_eq_some_iff.1 h
  obtain ⟨axis, -, h⟩ := Option.bind_eq_some_iff.1 h
  cases h
  obtain rfl := List.mem_singleton.1 ht
  exact given_of_weight? hw

theorem supplied_transpose : Choice.Supplied transposeKernel := by
  intro n params batch k h t ht
  obtain ⟨axes, -, h⟩ := Option.bind_eq_some_iff.1 h
  obtain ⟨sizes, -, h⟩ := Option.bind_eq_some_iff.1 h
  cases h
  cases ht

theorem supplied_accessor : Choice.Supplied accessorKernel := by
  intro n params batch k h t ht
  obtain ⟨z, -, h⟩ := Option.bind_eq_some_iff.1 h
  obtain ⟨index, -, h⟩ := Option.bind_eq_some_iff.1 h
  cases h
  cases ht

theorem supplied_convolution : Choice.Supplied convolutionKernel := by
  intro n params batch k h t ht
  obtain ⟨weights, hw, h⟩ := Option.bind_eq_some_iff.1 h
  obtain ⟨strides, -, h⟩ := Option.bind_eq_some_iff.1 h
  obtain ⟨padding, -, h⟩ := Option.bind_eq_some_iff.1 h
  obtain ⟨dilation, -, h⟩ := Option.bind_eq_some_iff.1 h
  cases h
  rcases List.mem_cons.1 ht with rfl | ht
  · exact given_of_weight? hw
  · exact given_of_weight? (Option.mem_toList.1 ht)

theorem supplied_kernels : ∀ c ∈ kernels, c.2.Supplied := by
  unfold kernels
  simp only [List.forall_mem_cons, List.not_mem_nil, false_implies, implies_true, and_true]
  exact ⟨supplied_input, supplied_input, supplied_constant, supplied_always rfl,
    supplied_always rfl, supplied_always rfl, supplied_always rfl, supplied_always rfl,
    supplied_biasAdd, supplied_transpose, supplied_accessor, supplied_always rfl,
    supplied_convolution⟩

theorem supplied_kernel? : Choice.Supplied kernel? := by
  intro n params batch k h
  obtain ⟨choose, hc, h⟩ := Option.bind_eq_some_iff.1 h
  exact supplied_kernels _ (Dict.mem_of_lookup_eq_some hc) h

/-! ## Runs of the reference backend -/

open Program

variable {name : String} {nodes : List Node} {r : Recipe} {p : Program}

theorem keepsWellFormed_of_lower (hl : lower name nodes r = .ok p) (ht : r.table = table)
    (hd : ∀ n ∈ nodes, ∀ t ∈ n.data, t.WellFormed)
    (hp : ∀ x ∈ r.params.entries, x.2.WellFormed) : ∀ o ∈ p.operations, o.KeepsWellFormed := by
  intro o ho
  obtain ⟨n, hn, h, known, hm, hok⟩ := exists_handler_of_operation hl ht ho
  obtain ⟨k, reads, S, hk, rfl, -⟩ := applies_of_handler hm hok
  refine Kernel.keepsWellFormed_operation (fun t hc => ?_) _ _ _
  rcases supplied_kernel? hk t hc with hdata | ⟨i, hget⟩
  · exact hd n hn t hdata
  · exact hp _ (Dict.mem_of_lookup_eq_some hget)

/-- If the data of the nodes, the parameters and the feed are well formed, then every step of an
execution computes well-formed values, and shows such to calibration. -/
theorem wellFormed_of_step (hl : lower name nodes r = .ok p) (ht : r.table = table)
    (hd : ∀ n ∈ nodes, ∀ t ∈ n.data, t.WellFormed)
    (hp : ∀ x ∈ r.params.entries, x.2.WellFormed) {feed : Dict Tensor}
    (hf : ∀ x ∈ feed.entries, x.2.WellFormed) {stop : Option String} {k : Nat} {s : Step}
    (hs : some (.ok s) ∈ (Execution.start p feed stop).take k) :
    s.output.WellFormed ∧ s.view.WellFormed := by
  have hparams := (lower_eq_ok hl).1
  have ho := keepsWellFormed_of_lower hl ht hd hp
  exact (Execution.sound_start (hparams ▸ hp) hf ho stop).take k hs

/-- An image that is turned and then convolved with a kernel of its own, to which a bias is
added. -/
def turnedImage : List Node :=
  [{ name := "x", types := ["Input"], shapes := .tensor ⟨[1, 1, 2, 1]⟩, tops := ["t"] },
    { name := "t", types := ["Transpose"], shapes := .tensor ⟨[1, 1, 1, 2]⟩, bottoms := ["x"],
      tops := ["c"], attrs := .ofList [("axes", .ints [0, 1, 3, 2])] },
    { name := "c", types := ["Convolution"], shapes := .tensor ⟨[1, 1, 1, 1]⟩, bottoms := ["t"],
      data := [⟨[1, 1, 1, 2], [⟨0x3F800000⟩, ⟨0x40000000⟩]⟩] }]

theorem wellFormed_of_turnedImage : ∃ (params feed : Dict Tensor) (p : Program) (s : Step),
    lower "turned" turnedImage ⟨"cpu", table, params, openBatch⟩ = .ok p ∧
      (∀ n ∈ turnedImage, ∀ t ∈ n.data, t.WellFormed) ∧
        (∀ x ∈ params.entries, x.2.WellFormed) ∧ (∀ x ∈ feed.entries, x.2.WellFormed) ∧
          some (.ok s) ∈ (Execution.start p feed none).take 3 ∧
            s.output = .tensor ⟨[1, 1, 1, 1], [⟨0x40C00000⟩]⟩ ∧
              s.output.WellFormed ∧ s.view.WellFormed := by
  let params : Dict Tensor := ⟨[("c_biases", ⟨[1], [⟨0x3F800000⟩]⟩)]⟩
  let feed : Dict Tensor := ⟨[("x", ⟨[1, 1, 2, 1], [⟨0x3F800000⟩, ⟨0x40000000⟩]⟩)]⟩
  have hrun : (lower "turned" turnedImage ⟨"cpu", table, params, openBatch⟩).map (fun p =>
      ((Execution.start p feed none).take 3)[2]?.bind fun answer =>
        answer.bind fun x => x.toOption.map Step.output) =
          .ok (some (.tensor ⟨[1, 1, 1, 1], [⟨0x40C00000⟩]⟩)) := by decide +kernel
  obtain ⟨p, hl, he⟩ := Outcome.map_eq_ok.1 hrun
  obtain ⟨answer, hanswer, he⟩ := Option.bind_eq_some_iff.1 he
  obtain ⟨x, rfl, he⟩ := Option.bind_eq_some_iff.1 he
  obtain ⟨s, hx, houtput⟩ := Option.map_eq_some_iff.1 he
  cases x with
  | error e => cases hx
  | ok s' =>
      cases hx
      have hs := List.mem_of_getElem? hanswer
      have hd : ∀ n ∈ turnedImage, ∀ t ∈ n.data, t.WellFormed := by decide
      have hp : ∀ x ∈ params.entries, x.2.WellFormed := by decide
      have hf : ∀ x ∈ feed.entries, x.2.WellFormed := by decide
      exact ⟨params, feed, p, s, hl, hd, hp, hf, hs, houtput,
        wellFormed_of_step hl rfl hd hp hf hs⟩

end Cpu

end Dataflow
