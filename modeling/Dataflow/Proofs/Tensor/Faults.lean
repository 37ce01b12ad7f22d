import Dataflow.Proofs.Tensor.Bias
import Dataflow.Proofs.Tensor.Convolution

/-!
# Where tensor operations stop

An operation on tensors that is refused says why; one that stops takes everything down that waits
for it. The checks in front of an operation keep it from stopping over elements, but not over sizes.
To add a bias or to transpose is to multiply dimensions, some of which may be zero while others are
too large. A convolution measures the kernel and the padded image before it compares them, needs
memory for its sums, and takes the padding off the positions it looks at in signed words. For each
operation the dimensions decide whether it stops, and nothing else makes it stop.
-/

namespace Dataflow

namespace Failure

variable {ε ε' α β : Type}

def Stops (x : Except (Failure ε) α) : Prop := ∃ f, x = .error (.fault f)

theorem not_stops_ok (a : α) : ¬Stops (.ok a : Except (Failure ε) α) := nofun

theorem not_stops_refuse (e : ε) : ¬Stops (refuse e : Except (Failure ε) α) := nofun

theorem stops_bind {x : Except (Failure ε) α} {f : α → Except (Failure ε) β} :
    Stops (x >>= f) ↔ Stops x ∨ ∃ a, x = .ok a ∧ Stops (f a) := by
  cases x <;> simp [Stops]

theorem stops_lift {x : Except Fault α} :
    Stops (liftM x : Except (Failure ε) α) ↔ ¬x.isOk := by
  cases x with
  | ok a => exact ⟨nofun, fun h => absurd rfl h⟩
  | error f => exact ⟨fun _ => nofun, fun _ => ⟨f, rfl⟩⟩

theorem stops_lift_bind {x : Except Fault α} {f : α → Except (Failure ε) β} :
    Stops (liftM x >>= f) ↔ ¬x.isOk ∨ ∃ a, x = .ok a ∧ Stops (f a) := by
  rw [stops_bind, stops_lift]
  simp only [Failure.lift_eq_ok]

theorem stops_guard {p : Prop} [Decidable p] {e : ε} {x : Except (Failure ε) α} :
    Stops (if p then do refuse e; x else x) ↔ ¬p ∧ Stops x := by
  split
  · next hp => exact ⟨fun h => absurd h (not_stops_refuse e), fun h => absurd hp h.1⟩
  · next hp => exact ⟨fun h => ⟨hp, h⟩, And.right⟩

theorem stops_mapError {f : ε → ε'} {x : Except (Failure ε) α} :
    Stops (x.mapError (map f)) ↔ Stops x := by
  unfold Stops
  simp only [Outcome.mapError_eq_error]
  constructor
  · rintro ⟨fault, e, he, hfault⟩
    cases e with
    | error e => cases hfault
    | fault g => exact ⟨g, he⟩
  · rintro ⟨fault, he⟩
    exact ⟨fault, .fault fault, he, rfl⟩

theorem exists_of_not_stops {x : Except Fault α} {f : α → Except (Failure ε) β}
    (h : ¬Stops (liftM x >>= f)) : ∃ a, x = .ok a ∧ ¬Stops (f a) := by
  cases x with
  | ok a => exact ⟨a, rfl, h⟩
  | error fault => exact absurd ⟨fault, rfl⟩ h

end Failure

open Failure

/-- A product fails at the first step that no machine word holds. -/
theorem Size.not_isOk_product_iff {dims : List Nat} :
    ¬(product dims).isOk ↔ ∃ k, limit ≤ Dims.volume (dims.take k) := by
  have hok : (product dims).isOk ↔ ∀ k, Dims.volume (dims.take k) < limit := by
    constructor
    · intro h
      obtain ⟨n, hn⟩ := Outcome.exists_of_isOk h
      exact (product_eq_ok.1 hn).2
    · intro h
      exact Outcome.isOk_of_eq_ok (product_eq_ok.2 ⟨rfl, h⟩)
  rw [hok]
  simp only [not_forall, Nat.not_lt]

namespace Tensor

variable {t a b bias : Tensor} {axes : List Nat} {axis : Nat}

theorem not_stops_zipWith (f : Single → Single → Single) : ¬Stops (a.zipWith f b) := by
  unfold zipWith
  split
  · exact not_stops_ok _
  · split
    · exact not_stops_ok _
    · exact not_stops_ok _
    · exact not_stops_refuse _

/-! ## Bias -/

/-- The bias matches the axis, but the dimensions behind the axis do not multiply to a machine
size. -/
def BiasOverruns (t bias : Tensor) (axis : Nat) : Prop :=
  t.dims[axis]? = some bias.size ∧
    ∃ k, Size.limit ≤ Dims.volume ((t.dims.drop (axis + 1)).take k)

theorem biasOverruns_of_dims {n o r s : Nat} (hd : t.dims = [n, o, r, s]) (hs : 0 < s) :
    t.BiasOverruns bias 1 ↔ bias.size = o ∧ Size.limit ≤ r * s := by
  have hvolume : (∃ k, Size.limit ≤ Dims.volume ([r, s].take k)) ↔ Size.limit ≤ r * s := by
    constructor
    · rintro ⟨k, hk⟩
      rcases k with _ | _ | k
      · exact absurd hk (show ¬Size.limit ≤ 1 by decide)
      · rw [List.take_succ_cons, List.take_zero, Dims.volume, Dims.volume, Nat.mul_one] at hk
        exact hk.trans (Nat.le_mul_of_pos_right r hs)
      · simpa [Dims.volume] using hk
    · intro h
      exact ⟨2, by simpa [Dims.volume] using h⟩
  unfold BiasOverruns
  rw [hd, ← hvolume]
  simp [eq_comm]

theorem stops_addBias_iff (ht : t.WellFormed) :
    Stops (t.addBias bias axis) ↔ t.BiasOverruns bias axis := by
  unfold BiasOverruns
  by_cases hd : t.dims[axis]? = some bias.size
  · by_cases hfit : ∀ k, Dims.volume ((t.dims.drop (axis + 1)).take k) < Size.limit
    · obtain ⟨data, h, -⟩ := exists_addBias ht hd hfit
      rw [h]
      refine ⟨fun h => absurd h (not_stops_ok _), ?_⟩
      rintro ⟨-, k, hle⟩
      exact absurd (hfit k) (Nat.not_lt.2 hle)
    · simp only [not_forall, Nat.not_lt] at hfit
      refine ⟨fun _ => ⟨hd, hfit⟩, fun _ => ?_⟩
      unfold addBias
      rw [hd]
      dsimp only
      rw [stops_guard, stops_lift_bind, not_not]
      exact ⟨rfl, Or.inl (Size.not_isOk_product_iff.2 hfit)⟩
  · obtain ⟨e, he⟩ := addBias_of_no_match hd
    rw [he]
    exact ⟨fun h => absurd h (not_stops_refuse e), fun h => absurd h.1 hd⟩

/-! ## Axes -/

/-- The axes may be permuted, but the dimensions behind one of them do not multiply to a machine
size. -/
def TransposeOverruns (t : Tensor) (axes : List Nat) : Prop :=
  axes.Perm (List.range t.dims.length) ∧ ∃ k, 0 < k ∧ Size.limit ≤ Dims.volume (t.dims.drop k)

theorem stops_transpose_iff (ht : t.WellFormed) :
    Stops (t.transpose axes) ↔ t.TransposeOverruns axes := by
  unfold TransposeOverruns
  by_cases hp : axes.Perm (List.range t.dims.length)
  · by_cases hfit : ∀ k, 0 < k → Dims.volume (t.dims.drop k) < Size.limit
    · obtain ⟨u, hu⟩ := exists_transpose ht hp hfit
      rw [hu]
      refine ⟨fun h => absurd h (not_stops_ok u), ?_⟩
      rintro ⟨-, k, hk, hle⟩
      exact absurd (hfit k hk) (Nat.not_lt.2 hle)
    · have hstrides : ¬(Dims.strides t.dims).isOk := by
        intro h
        obtain ⟨s, hs⟩ := Outcome.exists_of_isOk h
        exact hfit (Dims.strides_eq_ok.1 hs).2
      simp only [not_forall, Nat.not_lt, exists_prop] at hfit
      refine ⟨fun _ => ⟨hp, hfit⟩, fun _ => ?_⟩
      unfold transpose
      dsimp only
      rw [stops_guard, stops_guard, stops_lift_bind, not_not, not_not]
      exact ⟨Dims.length_of_axes hp, admissible_of_perm hp, Or.inl hstrides⟩
  · obtain ⟨e, he⟩ := transpose_of_not_perm hp
    rw [he]
    exact ⟨fun h => absurd h (not_stops_refuse e), fun h => absurd h.1 hp⟩

end Tensor

/-! ## Convolution -/

namespace Convolution

/-- The checks on dimensions and strides let the convolution pass, which goes along the two axes. -/
def Checked (c : Convolution) (image : Tensor) (batch outs channels : Nat)
    (rows columns : Axis) : Prop :=
  ∃ height width kernelHeight kernelWidth, image.dims = [batch, channels, height, width] ∧
    c.weights.dims = [outs, channels, kernelHeight, kernelWidth] ∧
      (c.strides.1 ≠ 0 ∧ c.strides.2 ≠ 0) ∧ rows = c.rows height kernelHeight ∧
        columns = c.columns width kernelWidth

/-- What a convolution that is let pass can get stuck in. -/
inductive Stuck (batch outs channels : Nat) (rows columns : Axis) : Prop where
  /-- The kernel has no cells, or one of the extents to compare is no machine size. -/
  | size (h : ¬Measured rows columns)
  /-- The kernel fits, but the sums have no room in memory. -/
  | memory (hrows : rows.span ≤ rows.room) (hcolumns : columns.span ≤ columns.room)
      (h : Size.signedLimit ≤ batch * outs * rows.outputs * columns.outputs * 4)
  /-- The kernel fits, but a cell that is looked at crosses. -/
  | position (hrows : rows.span ≤ rows.room) (hcolumns : columns.span ≤ columns.room)
      (hbatch : 0 < batch) (houts : 0 < outs) (hchannels : 0 < channels) {y x : Nat}
      (hy : y < rows.outputs) (hx : x < columns.outputs) (h : ¬InRange rows columns y x)

/-- A kernel with cells does not get stuck if signed words hold the extents to compare and the sums
have room. -/
theorem not_stuck {batch outs channels : Nat} {rows columns : Axis}
    (hcells : 0 < rows.cells ∧ 0 < columns.cells)
    (hspan : rows.span < Size.signedLimit ∧ columns.span < Size.signedLimit)
    (hroom : rows.room < Size.signedLimit ∧ columns.room < Size.signedLimit)
    (hmemory : batch * outs * rows.outputs * columns.outputs * 4 < Size.signedLimit) :
    ¬Stuck batch outs channels rows columns := by
  have hlimit := Size.signedLimit_lt_limit
  rintro (h | ⟨-, -, h⟩ | ⟨hrows, hcolumns, -, -, -, hy, hx, h⟩)
  · exact h ⟨hcells.1, hcells.2, hspan.1.trans hlimit, hspan.2.trans hlimit, hroom.1.trans hlimit,
      fun _ => hroom.2.trans hlimit⟩
  · exact absurd hmemory (Nat.not_lt.2 h)
  · exact h (inRange_of_room hroom.1 hroom.2 (fun ky hky => Axis.reach_lt hrows hy hky)
      fun kx hkx => Axis.reach_lt hcolumns hx hkx)

/-- The convolution of the image is let pass and gets stuck. -/
def Overruns (c : Convolution) (image : Tensor) : Prop :=
  ∃ batch outs channels rows columns,
    c.Checked image batch outs channels rows columns ∧ Stuck batch outs channels rows columns

/-- There are sums that the bias matches, but their rows and columns do not multiply to a machine
size. -/
def BiasOverruns (c : Convolution) (image bias : Tensor) : Prop :=
  ∃ batch outs channels rows columns, c.Checked image batch outs channels rows columns ∧
    ¬Stuck batch outs channels rows columns ∧ rows.span ≤ rows.room ∧
      columns.span ≤ columns.room ∧ bias.size = outs ∧
        Size.limit ≤ rows.outputs * columns.outputs

section

variable {c : Convolution} {image : Tensor}
  {batch channels height width outs kernelHeight kernelWidth : Nat}

/-- A convolution that does not stop has taken all measures, unless its kernel has too many rows. -/
theorem measured_of_not_stops (hi : image.dims = [batch, channels, height, width])
    (hw : c.weights.dims = [outs, channels, kernelHeight, kernelWidth])
    (hstrides : c.strides.1 ≠ 0 ∧ c.strides.2 ≠ 0) (h : ¬Stops (c.apply image)) :
    Measured (c.rows height kernelHeight) (c.columns width kernelWidth) := by
  unfold apply at h
  simp only [hi, hw] at h
  rw [if_neg (fun h => h rfl), if_neg (by omega)] at h
  obtain ⟨_, hs, h⟩ := exists_of_not_stops h
  obtain ⟨hcellRows, hspanRows, rfl⟩ := (span_eq_ok (a := c.rows height kernelHeight)).1 hs
  obtain ⟨_, hs, h⟩ := exists_of_not_stops h
  obtain ⟨hcellColumns, hspanColumns, rfl⟩ := (span_eq_ok (a := c.columns width kernelWidth)).1 hs
  obtain ⟨_, hs, h⟩ := exists_of_not_stops h
  obtain ⟨hroomRows, rfl⟩ := (padded_eq_ok (a := c.rows height kernelHeight)).1 hs
  refine ⟨hcellRows, hcellColumns, hspanRows, hspanColumns, hroomRows, fun hfit => ?_⟩
  rw [stops_guard] at h
  have h := fun hstops => h ⟨Nat.not_lt.2 hfit, hstops⟩
  obtain ⟨_, hs, -⟩ := exists_of_not_stops h
  exact ((padded_eq_ok (a := c.columns width kernelWidth)).1 hs).1

theorem stops_apply_of_measured (hi : image.dims = [batch, channels, height, width])
    (hw : c.weights.dims = [outs, channels, kernelHeight, kernelWidth])
    (hstrides : c.strides.1 ≠ 0 ∧ c.strides.2 ≠ 0) (himage : image.WellFormed)
    (hweights : c.weights.WellFormed) (hbatch : batch < Size.limit)
    (hm : Measured (c.rows height kernelHeight) (c.columns width kernelWidth)) :
    Stops (c.apply image) ↔
      Stuck batch outs channels (c.rows height kernelHeight) (c.columns width kernelWidth) := by
  rw [apply_eq hi hw hstrides hm]
  by_cases hfit : (c.rows height kernelHeight).span ≤ (c.rows height kernelHeight).room ∧
      (c.columns width kernelWidth).span ≤ (c.columns width kernelWidth).room
  · rw [if_pos hfit, stops_lift, isOk_slide hi hw himage hweights hm.roomRows
      (hm.roomColumns hfit.1) hfit.1 hfit.2 hbatch]
    constructor
    · intro h
      by_cases hmemory : batch * outs * (c.rows height kernelHeight).outputs *
          (c.columns width kernelWidth).outputs * 4 < Size.signedLimit
      · have h := not_and.1 h hmemory
        simp only [not_forall, exists_prop] at h
        obtain ⟨hb, ho, hc, y, hy, x, hx, h⟩ := h
        exact .position hfit.1 hfit.2 hb ho hc hy hx h
      · exact .memory hfit.1 hfit.2 (Nat.not_lt.1 hmemory)
    · rintro (h | ⟨-, -, h⟩ | ⟨-, -, hb, ho, hc, hy, hx, h⟩) ⟨hmemory, hrange⟩
      · exact h hm
      · exact absurd hmemory (Nat.not_lt.2 h)
      · exact h (hrange hb ho hc _ hy _ hx)
  · rw [if_neg hfit]
    refine ⟨fun h => absurd h (not_stops_refuse _), ?_⟩
    rintro (h | ⟨hrows, hcolumns, -⟩ | ⟨hrows, hcolumns, -⟩)
    · exact absurd hm h
    · exact absurd ⟨hrows, hcolumns⟩ hfit
    · exact absurd ⟨hrows, hcolumns⟩ hfit

theorem refused_or_checked : (∃ e, c.apply image = refuse e) ∨
    ∃ batch outs channels rows columns, c.Checked image batch outs channels rows columns := by
  unfold apply
  split
  · next batch channels height width hi =>
    split
    · next outs expected kernelHeight kernelWidth hw =>
      dsimp only
      by_cases hchannels : expected = channels
      · subst hchannels
        by_cases hstrides : c.strides.1 = 0 ∨ c.strides.2 = 0
        · rw [if_neg (fun h => h rfl), if_pos hstrides]
          exact Or.inl ⟨_, rfl⟩
        · rw [not_or] at hstrides
          exact Or.inr ⟨_, _, _, _, _, _, _, _, _, hi, hw, hstrides, rfl, rfl⟩
      · rw [if_pos hchannels]
        exact Or.inl ⟨_, rfl⟩
    · exact Or.inl ⟨_, rfl⟩
  · exact Or.inl ⟨_, rfl⟩

section

variable (himage : image.Accepted) (hweights : c.weights.WellFormed)
  {rows columns : Axis}

include himage hweights

theorem stops_iff_stuck (h : c.Checked image batch outs channels rows columns) :
    Stops (c.apply image) ↔ Stuck batch outs channels rows columns := by
  obtain ⟨height, width, kernelHeight, kernelWidth, hi, hw, hstrides, rfl, rfl⟩ := h
  have hbatch := (Size.product_eq_ok.1 (Tensor.accepted_iff.1 himage)).2 1
  rw [hi, List.take_succ_cons, List.take_zero, Dims.volume, Dims.volume, Nat.mul_one] at hbatch
  by_cases hm : Measured (c.rows height kernelHeight) (c.columns width kernelWidth)
  · exact stops_apply_of_measured hi hw hstrides himage.wellFormed hweights hbatch hm
  · refine ⟨fun _ => .size hm, fun _ => ?_⟩
    by_contra h
    exact hm (measured_of_not_stops hi hw hstrides h)

theorem stops_apply_iff : Stops (c.apply image) ↔ c.Overruns image := by
  constructor
  · intro h
    rcases refused_or_checked with ⟨e, he⟩ | ⟨_, _, _, _, _, hchecked⟩
    · rw [he] at h
      exact absurd h (not_stops_refuse e)
    · exact ⟨_, _, _, _, _, hchecked, (stops_iff_stuck himage hweights hchecked).1 h⟩
  · rintro ⟨_, _, _, _, _, hchecked, hstuck⟩
    exact (stops_iff_stuck himage hweights hchecked).2 hstuck

/-- A convolution that is let pass and does not get stuck compares the kernel with the image, and
has the sums of one that fits. -/
theorem apply_of_checked (h : c.Checked image batch outs channels rows columns)
    (hstuck : ¬Stuck batch outs channels rows columns) :
    (∃ e, c.apply image = refuse e ∧ ¬(rows.span ≤ rows.room ∧ columns.span ≤ columns.room)) ∨
      ∃ sums, c.apply image = .ok sums ∧ sums.dims = [batch, outs, rows.outputs, columns.outputs] ∧
        rows.span ≤ rows.room ∧ columns.span ≤ columns.room := by
  have hgoes := (not_congr (stops_iff_stuck himage hweights h)).2 hstuck
  obtain ⟨height, width, kernelHeight, kernelWidth, hi, hw, hstrides, rfl, rfl⟩ := h
  have hm := measured_of_not_stops hi hw hstrides hgoes
  rw [apply_eq hi hw hstrides hm] at hgoes ⊢
  by_cases hfit : (c.rows height kernelHeight).span ≤ (c.rows height kernelHeight).room ∧
      (c.columns width kernelWidth).span ≤ (c.columns width kernelWidth).room
  · rw [if_pos hfit] at hgoes ⊢
    rw [stops_lift, not_not] at hgoes
    obtain ⟨sums, hsums⟩ := Outcome.exists_of_isOk hgoes
    rw [hsums]
    exact Or.inr ⟨sums, rfl, dims_of_slide hsums, hfit⟩
  · rw [if_neg hfit]
    exact Or.inl ⟨_, rfl, hfit⟩

theorem stops_addBias_apply_iff {bias : Tensor} :
    (∃ sums, c.apply image = .ok sums ∧ Stops (sums.addBias bias 1)) ↔
      c.BiasOverruns image bias := by
  constructor
  · rintro ⟨sums, hsums, h⟩
    rcases refused_or_checked with ⟨e, he⟩ | ⟨_, _, _, _, _, hchecked⟩
    · rw [he] at hsums
      cases hsums
    · have hgoes : ¬Stops (c.apply image) := hsums ▸ not_stops_ok sums
      have hstuck := mt (stops_iff_stuck himage hweights hchecked).2 hgoes
      rcases apply_of_checked himage hweights hchecked hstuck with ⟨e, he, -⟩ |
        ⟨sums', hsums', hdims, hrows, hcolumns⟩
      · rw [he] at hsums
        cases hsums
      · obtain rfl : sums = sums' := Except.ok.inj (hsums.symm.trans hsums')
        rw [Tensor.stops_addBias_iff (wellFormed_apply hsums),
          Tensor.biasOverruns_of_dims hdims (Axis.outputs_pos _)] at h
        exact ⟨_, _, _, _, _, hchecked, hstuck, hrows, hcolumns, h⟩
  · rintro ⟨_, _, _, _, _, hchecked, hstuck, hrows, hcolumns, hover⟩
    rcases apply_of_checked himage hweights hchecked hstuck with ⟨e, -, hfit⟩ |
      ⟨sums, hsums, hdims, -⟩
    · exact absurd ⟨hrows, hcolumns⟩ hfit
    · refine ⟨sums, hsums, ?_⟩
      rw [Tensor.stops_addBias_iff (wellFormed_apply hsums),
        Tensor.biasOverruns_of_dims hdims (Axis.outputs_pos _)]
      exact hover

end

end

end Convolution

end Dataflow
