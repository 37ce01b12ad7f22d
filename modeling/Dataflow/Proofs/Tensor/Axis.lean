import Dataflow.Proofs.Tensor.WellFormed

/-!
# One direction of a convolution

Along each direction the cells of a kernel reach over the padded image. A kernel that fits the
padded extent is moved in steps of the stride as often as it fits, and a cell that does not lie in
the padding has a row or a column of the image under it. The position of a cell is read as a signed
word, which goes wrong only where it falls below the signed words once the padding is taken off.

A sum over the cells is a fold whose steps fail or succeed whatever sum they have reached, so it
exists if no step fails, and is then the fold of what is added at the cells that lie over the image.
-/

namespace Dataflow

/-! ## Machine sizes -/

theorem Size.signedLimit_lt_limit : signedLimit < limit := by decide

/-- The numbers that are read as themselves are the ones below the signed limit. -/
theorem Size.toSigned_of_lt {n : Nat} (h : n < signedLimit) : toSigned n = n := if_pos h

theorem Size.toSigned_of_le {n : Nat} (h : signedLimit ≤ n) : toSigned n = (n : Int) - limit :=
  if_neg (Nat.not_lt.2 h)

namespace Convolution

/-! ## Directions -/

/-- How a kernel is laid over an image in one of the two directions. -/
structure Axis where
  /-- The rows or columns of the image. -/
  extent : Nat
  /-- The rows or columns of the kernel. -/
  cells : Nat
  stride : Nat
  padding : Nat
  dilation : Nat

def rows (c : Convolution) (height kernelHeight : Nat) : Axis :=
  ⟨height, kernelHeight, c.strides.1, c.padding.1, c.dilation.1⟩

def columns (c : Convolution) (width kernelWidth : Nat) : Axis :=
  ⟨width, kernelWidth, c.strides.2, c.padding.2, c.dilation.2⟩

namespace Axis

variable {a : Axis} {out cell : Nat}

def span (a : Axis) : Nat := a.dilation * (a.cells - 1) + 1

def room (a : Axis) : Nat := a.extent + 2 * a.padding

def outputs (a : Axis) : Nat := (a.room - a.span) / a.stride + 1

/-- How far a cell of the kernel reaches into the padded image at an output. -/
def reach (a : Axis) (out cell : Nat) : Nat := out * a.stride + cell * a.dilation

def place? (a : Axis) (out cell : Nat) : Option Nat :=
  if a.padding ≤ a.reach out cell ∧ a.reach out cell < a.padding + a.extent then
    some (a.reach out cell - a.padding)
  else none

/-- The computation finds nothing in an image of an extent that reads as a negative number. -/
def seen? (a : Axis) (out cell : Nat) : Option Nat :=
  if a.extent < Size.signedLimit then a.place? out cell else none

/-- The position of the cell reads as a negative number, and less the padding it is out of the range
of signed words. -/
def Crosses (a : Axis) (out cell : Nat) : Prop :=
  Size.signedLimit ≤ a.reach out cell ∧ a.reach out cell < Size.signedLimit + a.padding

theorem outputs_pos (a : Axis) : 0 < a.outputs := Nat.succ_pos _

theorem reach_lt (hfit : a.span ≤ a.room) (ho : out < a.outputs) (hc : cell < a.cells) :
    a.reach out cell < a.room := by
  have hout : out * a.stride ≤ a.room - a.span :=
    Nat.le_trans (Nat.mul_le_mul_right _ (Nat.le_of_lt_succ ho)) (Nat.div_mul_le_self _ _)
  have hcell : cell * a.dilation ≤ a.dilation * (a.cells - 1) := by
    rw [Nat.mul_comm]
    exact Nat.mul_le_mul_left _ (by omega)
  unfold reach
  unfold span at hfit hout
  omega

theorem lt_of_place? {i : Nat} (h : a.place? out cell = some i) : i < a.extent := by
  unfold place? at h
  split at h
  · cases h
    omega
  · cases h

theorem place?_of_seen? {i : Nat} (h : a.seen? out cell = some i) : a.place? out cell = some i := by
  unfold seen? at h
  split at h
  · exact h
  · cases h

theorem seen?_eq_place? (h : a.extent < Size.signedLimit) :
    a.seen? out cell = a.place? out cell := if_pos h

theorem extent_le_room : a.extent ≤ a.room := Nat.le_add_right _ _

theorem not_crosses (hroom : a.room < Size.signedLimit) (h : a.reach out cell < a.room) :
    ¬a.Crosses out cell :=
  fun hc => absurd hc.1 (by omega)

/-- The position of a cell in the image as a signed number, the way it is computed. -/
def position (a : Axis) (out cell : Nat) : Int :=
  Size.toSigned (a.reach out cell) - Size.toSigned a.padding

theorem position_eq (hroom : a.room < Size.limit) : a.position out cell =
    if a.reach out cell < Size.signedLimit then (a.reach out cell : Int) - a.padding
    else (a.reach out cell : Int) - Size.limit - a.padding := by
  have hlimit : Size.limit = 2 * Size.signedLimit := by decide
  unfold room at hroom
  unfold position
  rw [Size.toSigned_of_lt (n := a.padding) (by omega)]
  split
  · next hr => rw [Size.toSigned_of_lt hr]
  · next hr => rw [Size.toSigned_of_le (Nat.not_lt.1 hr)]

section

variable (hroom : a.room < Size.limit) (h : a.reach out cell < a.room)

include hroom h

theorem position_out_of_range_iff : (a.position out cell < -(Size.signedLimit : Int) ∨
    (Size.signedLimit : Int) ≤ a.position out cell) ↔ a.Crosses out cell := by
  have hlimit : Size.limit = 2 * Size.signedLimit := by decide
  rw [position_eq hroom]
  unfold room at h hroom
  unfold Crosses
  split <;> omega

theorem seen?_of_not_crosses (hc : ¬a.Crosses out cell) :
    (if 0 ≤ a.position out cell ∧ a.position out cell < Size.toSigned a.extent then
      some (a.position out cell).toNat else none) = a.seen? out cell := by
  have hlimit : Size.limit = 2 * Size.signedLimit := by decide
  rw [position_eq hroom]
  unfold room at h hroom
  unfold Crosses at hc
  unfold seen? place?
  by_cases he : a.extent < Size.signedLimit
  · rw [Size.toSigned_of_lt he, if_pos he]
    by_cases hin : a.padding ≤ a.reach out cell ∧ a.reach out cell < a.padding + a.extent
    · rw [if_pos hin, if_pos (c := a.reach out cell < Size.signedLimit) (by omega),
        if_pos (by omega)]
      congr 1
      omega
    · rw [if_neg hin, if_neg]
      split <;> omega
  · rw [Size.toSigned_of_le (Nat.not_lt.1 he), if_neg he, if_neg (by omega)]

/-- A reach within a padded extent that is a machine size is a position of the image, lies in the
padding, or crosses the range of signed words. -/
theorem tap_eq_ok {p : Option Nat} :
    tap out a.stride cell a.dilation a.padding a.extent = .ok p ↔
      ¬a.Crosses out cell ∧ p = a.seen? out cell := by
  have hsum : Size.add (out * a.stride) (cell * a.dilation) = .ok (a.reach out cell) :=
    Size.check_eq_ok.2 ⟨Nat.lt_trans h hroom, rfl⟩
  have hout : Size.mul out a.stride = .ok (out * a.stride) :=
    Size.check_eq_ok.2 ⟨by unfold reach at h; omega, rfl⟩
  have hcell : Size.mul cell a.dilation = .ok (cell * a.dilation) :=
    Size.check_eq_ok.2 ⟨by unfold reach at h; omega, rfl⟩
  rw [tap, hout, hcell]
  simp only [Outcome.ok_bind, hsum]
  change (if a.position out cell < -(Size.signedLimit : Int) ∨
    (Size.signedLimit : Int) ≤ a.position out cell then _ else _) = _ ↔ _
  by_cases hc : a.Crosses out cell
  · rw [if_pos ((position_out_of_range_iff hroom h).2 hc)]
    exact ⟨nofun, fun hp => absurd hc hp.1⟩
  · rw [if_neg (mt (position_out_of_range_iff hroom h).1 hc)]
    have hseen := seen?_of_not_crosses hroom h hc
    unfold position at hseen
    rw [hseen]
    simp [hc, eq_comm]

theorem tap_eq_ok_of_extent (he : a.extent < Size.signedLimit) {p : Option Nat} :
    tap out a.stride cell a.dilation a.padding a.extent = .ok p ↔
      ¬a.Crosses out cell ∧ p = a.place? out cell := by
  rw [← seen?_eq_place? he]
  exact tap_eq_ok hroom h

end

end Axis

/-! ## Extents -/

theorem span_eq_ok {a : Axis} {n : Nat} :
    Convolution.span a.dilation a.cells = .ok n ↔
      0 < a.cells ∧ a.span < Size.limit ∧ n = a.span := by
  unfold Convolution.span Axis.span Size.sub
  rw [Outcome.bind_eq_ok]
  constructor
  · rintro ⟨k, hk, h⟩
    split at hk
    · next hpos =>
      cases hk
      obtain ⟨m, hm, h⟩ := Outcome.bind_eq_ok.1 h
      obtain ⟨-, rfl⟩ := Size.check_eq_ok.1 hm
      obtain ⟨hlt, rfl⟩ := Size.check_eq_ok.1 h
      exact ⟨hpos, hlt, rfl⟩
    · cases hk
  · rintro ⟨hpos, hlt, rfl⟩
    refine ⟨_, if_pos hpos, Outcome.bind_eq_ok.2 ⟨_, Size.check_eq_ok.2 ⟨by omega, rfl⟩, ?_⟩⟩
    exact Size.check_eq_ok.2 ⟨hlt, rfl⟩

theorem padded_eq_ok {a : Axis} {n : Nat} :
    padded a.extent a.padding = .ok n ↔ a.room < Size.limit ∧ n = a.room := by
  unfold padded Axis.room
  rw [Outcome.bind_eq_ok]
  constructor
  · rintro ⟨m, hm, h⟩
    obtain ⟨-, rfl⟩ := Size.check_eq_ok.1 hm
    exact Size.check_eq_ok.1 h
  · rintro ⟨hlt, rfl⟩
    refine ⟨_, Size.check_eq_ok.2 ⟨by omega, rfl⟩, Size.check_eq_ok.2 ⟨hlt, rfl⟩⟩

/-! ## Sums -/

/-- The cells that lie over the image at an output, each with the row or column under it. -/
def Axis.places (a : Axis) (out : Nat) : List (Nat × Nat) :=
  (List.range a.cells).filterMap fun cell => (a.place? out cell).map (cell, ·)

theorem Axis.mem_places {a : Axis} {out : Nat} {p : Nat × Nat} :
    p ∈ a.places out ↔ p.1 < a.cells ∧ a.place? out p.1 = some p.2 := by
  obtain ⟨cell, i⟩ := p
  simp [places]

section

variable {cells : Nat} {tap : Nat → Except Fault (Option Nat)}
  {add : Single → Nat → Nat → Except Fault Single} {crosses : Nat → Prop} {seen : Nat → Option Nat}

variable (htap : ∀ k < cells, ∀ p, tap k = .ok p ↔ ¬crosses k ∧ p = seen k)

include htap

theorem isOk_sumOver {q : Prop}
    (hadd : ∀ k < cells, ∀ i, seen k = some i → ∀ acc, (add acc k i).isOk ↔ q) (acc : Single) :
    (sumOver cells tap add acc).isOk ↔
      ∀ k < cells, ¬crosses k ∧ ((seen k).isSome → q) := by
  unfold sumOver
  rw [Outcome.isOk_foldlM (p := fun k => ¬crosses k ∧ ((seen k).isSome → q))]
  · simp only [List.mem_range]
  · intro k hk acc
    rw [List.mem_range] at hk
    rw [Outcome.isOk_bind]
    simp only [htap k hk]
    cases hs : seen k with
    | none => simp [Except.isOk, Except.toBool]
    | some i => simp [hadd k hk i hs]

theorem sumOver_eq_ok {g : Single → Nat → Nat → Single}
    (hadd : ∀ k < cells, ∀ i, seen k = some i → ∀ acc b, add acc k i = .ok b → b = g acc k i)
    {acc b : Single} (h : sumOver cells tap add acc = .ok b) :
    b = ((List.range cells).filterMap fun k => (seen k).map (k, ·)).foldl
      (fun acc p => g acc p.1 p.2) acc := by
  unfold sumOver at h
  rw [List.foldl_filterMap]
  refine Outcome.foldlM_eq_ok ?_ h
  intro k hk acc b hb
  rw [List.mem_range] at hk
  obtain ⟨p, hp, hb⟩ := Outcome.bind_eq_ok.1 hb
  obtain ⟨-, rfl⟩ := (htap k hk p).1 hp
  cases hs : seen k with
  | none =>
      rw [hs] at hb
      cases hb
      rfl
  | some i =>
      rw [hs] at hb
      exact hadd k hk i hs acc b hb

end

end Convolution

end Dataflow
