import Dataflow.Proofs.Tensor.Axis
import Dataflow.Proofs.Tensor.Indices

/-!
# Convolution by its definition

The element of the result at an index is the sum of the products over all cells of the kernel that
lie over the image in both directions, added to zero one by one in increasing order of channel,
kernel row and kernel column. The computation measures the kernel and the padded image, refuses a
kernel that does not fit, and takes the sums of all outputs; each of them exists if the positions of
its cells do in both directions.
-/

namespace Dataflow

namespace Convolution

/-! ## Taps -/

/-- A cell of a kernel that lies over an element of the image. -/
structure Tap where
  channel : Nat
  /-- The cell of the kernel. -/
  cellRow : Nat
  cellColumn : Nat
  /-- The element of the image. -/
  row : Nat
  column : Nat

def taps (channels : Nat) (rows columns : Axis) (y x : Nat) : List Tap :=
  (List.range channels).flatMap fun channel =>
    (rows.places y).flatMap fun (cellRow, row) =>
      (columns.places x).map fun (cellColumn, column) =>
        ⟨channel, cellRow, cellColumn, row, column⟩

def product? (c : Convolution) (image : Tensor) (batch out : Nat) (t : Tap) : Option Single := do
  let a ← image.elementAt? [batch, t.channel, t.row, t.column]
  let w ← c.weights.elementAt? [out, t.channel, t.cellRow, t.cellColumn]
  return a * w

theorem mem_taps {channels y x : Nat} {rows columns : Axis} {t : Tap} :
    t ∈ taps channels rows columns y x ↔ t.channel < channels ∧
      (t.cellRow, t.row) ∈ rows.places y ∧ (t.cellColumn, t.column) ∈ columns.places x := by
  obtain ⟨channel, cellRow, cellColumn, row, column⟩ := t
  simp [taps]

/-! ## Sums -/

/-- No cell crosses that is looked at for the output in row `y` and column `x`. The columns are
looked at where a row of the kernel lies over the image. -/
def InRange (rows columns : Axis) (y x : Nat) : Prop :=
  ∀ ky < rows.cells, ¬rows.Crosses y ky ∧
    ((rows.seen? y ky).isSome → ∀ kx < columns.cells, ¬columns.Crosses x kx)

theorem inRange_of_room {rows columns : Axis} {y x : Nat} (hrows : rows.room < Size.signedLimit)
    (hcolumns : columns.room < Size.signedLimit)
    (hrow : ∀ ky < rows.cells, rows.reach y ky < rows.room)
    (hcolumn : ∀ kx < columns.cells, columns.reach x kx < columns.room) :
    InRange rows columns y x := fun ky hky =>
  ⟨Axis.not_crosses hrows (hrow ky hky), fun _ kx hkx => Axis.not_crosses hcolumns (hcolumn kx hkx)⟩

section

variable {c : Convolution} {image : Tensor}
  {batch channels height width outs kernelHeight kernelWidth b o y x : Nat}

variable (hi : image.dims = [batch, channels, height, width])
  (hw : c.weights.dims = [outs, channels, kernelHeight, kernelWidth])
  (himage : image.WellFormed) (hweights : c.weights.WellFormed) (hb : b < batch) (ho : o < outs)

include hi hw himage hweights hb ho

/-- The positions that the computation looks up are those of the two factors. -/
theorem exists_factors {t : Tap} (hchannel : t.channel < channels) (hrow : t.row < height)
    (hcolumn : t.column < width) (hcellRow : t.cellRow < kernelHeight)
    (hcellColumn : t.cellColumn < kernelWidth) :
    ∃ v w, c.product? image b o t = some (v * w) ∧
      image.data.toArray[((b * channels + t.channel) * height + t.row) * width + t.column]? =
        some v ∧
      c.weights.data.toArray[((o * channels + t.channel) * kernelHeight + t.cellRow) *
        kernelWidth + t.cellColumn]? = some w := by
  obtain ⟨v, hv, hv'⟩ := himage.exists_element hi hb hchannel hrow hcolumn
  obtain ⟨w, hw, hw'⟩ := hweights.exists_element hw ho hchannel hcellRow hcellColumn
  refine ⟨v, w, ?_, hv', hw'⟩
  rw [product?, hv, hw]
  rfl

theorem exists_products : ∃ product : Tap → Single,
    (∀ t v, c.product? image b o t = some v → product t = v) ∧
      (taps channels (c.rows height kernelHeight) (c.columns width kernelWidth) y x).mapM
        (c.product? image b o) = some ((taps channels (c.rows height kernelHeight)
          (c.columns width kernelWidth) y x).map product) := by
  have hgetD : ∀ t v, c.product? image b o t = some v →
      (c.product? image b o t).getD .zero = v := by
    intro t v hv
    rw [hv, Option.getD_some]
  refine ⟨_, hgetD, Outcome.mapM_eq_some.2 ?_⟩
  rw [List.forall₂_map_right_iff, List.forall₂_same]
  intro t ht
  obtain ⟨hchannel, hr, hc⟩ := mem_taps.1 ht
  obtain ⟨hky, hr⟩ := Axis.mem_places.1 hr
  obtain ⟨hkx, hc⟩ := Axis.mem_places.1 hc
  obtain ⟨v, w, hvw, -⟩ := exists_factors hi hw himage hweights hb ho hchannel
    (Axis.lt_of_place? hr) (Axis.lt_of_place? hc) hky hkx
  rw [hgetD t _ hvw, hvw]

variable (hroomRow : (c.rows height kernelHeight).room < Size.limit)
  (hroomColumn : (c.columns width kernelWidth).room < Size.limit)
  (hrow : ∀ ky < kernelHeight,
    (c.rows height kernelHeight).reach y ky < (c.rows height kernelHeight).room)
  (hcolumn : ∀ kx < kernelWidth,
    (c.columns width kernelWidth).reach x kx < (c.columns width kernelWidth).room)

include hroomRow hroomColumn hrow hcolumn

theorem isOk_accumulate :
    (c.accumulate image.data.toArray c.weights.data.toArray channels height width kernelHeight
      kernelWidth b o y x).isOk ↔
      ∀ channel < channels,
        InRange (c.rows height kernelHeight) (c.columns width kernelWidth) y x := by
  unfold accumulate
  rw [Outcome.isOk_foldlM (p := fun _ =>
    InRange (c.rows height kernelHeight) (c.columns width kernelWidth) y x)]
  · simp only [List.mem_range]
  · intro channel hchannel acc
    rw [List.mem_range] at hchannel
    refine isOk_sumOver (fun ky hky _ => Axis.tap_eq_ok hroomRow (hrow ky hky)) ?_ acc
    intro ky hky row hplace acc
    have hlt : row < height := Axis.lt_of_place? (Axis.place?_of_seen? hplace)
    refine (isOk_sumOver (q := True)
      (fun kx hkx _ => Axis.tap_eq_ok hroomColumn (hcolumn kx hkx)) ?_ acc).trans (by simp; rfl)
    intro kx hkx column hplace acc
    have hlt' : column < width := Axis.lt_of_place? (Axis.place?_of_seen? hplace)
    obtain ⟨v, w, -, hv, hw⟩ := exists_factors hi hw himage hweights hb ho
      (t := ⟨channel, ky, kx, row, column⟩) hchannel hlt hlt' hky hkx
    simp only [hv, hw]
    simp [Except.isOk, Except.toBool]

theorem accumulate_eq_ok (hheight : height < Size.signedLimit) (hwidth : width < Size.signedLimit)
    {s : Single} (h : c.accumulate image.data.toArray c.weights.data.toArray channels height width
      kernelHeight kernelWidth b o y x = .ok s) :
    ∃ products, (taps channels (c.rows height kernelHeight) (c.columns width kernelWidth) y
      x).mapM (c.product? image b o) = some products ∧
        s = products.foldl (· + ·) .zero := by
  obtain ⟨product, hproduct, hproducts⟩ :=
    exists_products hi hw himage hweights hb ho (y := y) (x := x)
  refine ⟨_, hproducts, ?_⟩
  rw [List.foldl_map, taps, List.foldl_flatMap]
  refine Outcome.foldlM_eq_ok ?_ h
  intro channel hchannel acc r hr
  rw [List.mem_range] at hchannel
  rw [List.foldl_flatMap]
  refine sumOver_eq_ok (fun ky hky _ => Axis.tap_eq_ok_of_extent hroomRow (hrow ky hky) hheight)
    (g := fun acc ky row => List.foldl (fun acc t => acc + product t) acc
      (((c.columns width kernelWidth).places x).map fun p => ⟨channel, ky, p.1, row, p.2⟩)) ?_ hr
  intro ky hky row hplace acc r hr
  rw [List.foldl_map]
  refine sumOver_eq_ok
    (fun kx hkx _ => Axis.tap_eq_ok_of_extent hroomColumn (hcolumn kx hkx) hwidth)
    (g := fun acc kx column => acc + product ⟨channel, ky, kx, row, column⟩) ?_ hr
  intro kx hkx column hplace' acc r hr
  obtain ⟨v, w, hvw, hv, hw⟩ := exists_factors hi hw himage hweights hb ho
    (t := ⟨channel, ky, kx, row, column⟩) hchannel (Axis.lt_of_place? hplace)
    (Axis.lt_of_place? hplace') hky hkx
  simp only [hv, hw] at hr
  cases hr
  rw [hproduct _ _ hvw]

end

/-! ## Filling the result -/

section

variable {n o r s : Nat} {f : Nat → Nat → Nat → Nat → Except Fault Single}

theorem isOk_fill : (fill n o r s f (.replicate (n * o * r * s) .zero)).isOk ↔
    ∀ b < n, ∀ i < o, ∀ y < r, ∀ x < s, (f b i y x).isOk := by
  rw [fill_replicate, Outcome.isOk_map, Outcome.isOk_mapM]
  simp only [List.mem_range]
  exact Dims.forall_position (p := fun b i y x => (f b i y x).isOk)

theorem getElem?_of_fill {data : Array Single}
    (h : fill n o r s f (.replicate (n * o * r * s) .zero) = .ok data) {b i y x : Nat}
    (hb : b < n) (hi : i < o) (hy : y < r) (hx : x < s) :
    ∃ v, f b i y x = .ok v ∧ data.toList[((b * o + i) * r + y) * s + x]? = some v := by
  rw [fill_replicate] at h
  obtain ⟨values, hvalues, rfl⟩ := Outcome.map_eq_ok.1 h
  have hk := Dims.position?_lt (Dims.position?_four.2 ⟨hb, hi, hy, hx, rfl⟩)
  simp only [Dims.volume, Nat.mul_one, ← Nat.mul_assoc] at hk
  obtain ⟨v, hv, hf⟩ := Outcome.exists_getElem?_of_forall₂ (Outcome.mapM_eq_ok.1 hvalues)
    (List.getElem?_range hk)
  obtain ⟨hkb, hki, hky, hkx⟩ := Dims.split_position (b := b) hi hy hx
  rw [hkb, hki, hky, hkx] at hf
  exact ⟨v, hf, hv⟩

end

/-! ## The computation -/

/-- What is computed before the kernel is moved over the image are machine sizes. A kernel that has
too many rows is refused before the columns of the image are padded. -/
structure Measured (rows columns : Axis) : Prop where
  cellRows : 0 < rows.cells
  cellColumns : 0 < columns.cells
  spanRows : rows.span < Size.limit
  spanColumns : columns.span < Size.limit
  roomRows : rows.room < Size.limit
  roomColumns : rows.span ≤ rows.room → columns.room < Size.limit

/-- The sums of all outputs, whose number has to be a machine size and to have room in memory. -/
def slide (c : Convolution) (image : Tensor) (batch outs channels : Nat) (rows columns : Axis) :
    Except Fault Tensor := do
  let total ← Size.product [batch, outs, rows.outputs, columns.outputs]
  Size.checkRoom total
  let data ← fill batch outs rows.outputs columns.outputs
    (c.accumulate image.data.toArray c.weights.data.toArray channels rows.extent columns.extent
      rows.cells columns.cells) (.replicate total .zero)
  return ⟨[batch, outs, rows.outputs, columns.outputs], data.toList⟩

theorem dims_of_slide {c : Convolution} {image u : Tensor} {batch outs channels : Nat}
    {rows columns : Axis} (h : c.slide image batch outs channels rows columns = .ok u) :
    u.dims = [batch, outs, rows.outputs, columns.outputs] := by
  obtain ⟨total, -, h⟩ := Outcome.bind_eq_ok.1 h
  obtain ⟨_, -, h⟩ := Outcome.bind_eq_ok.1 h
  obtain ⟨data, -, h⟩ := Outcome.bind_eq_ok.1 h
  cases h
  rfl

/-- A number of sums that fits a word, but has no room in memory. -/
theorem slide_of_no_room {c : Convolution} {image : Tensor} {batch outs channels : Nat}
    {rows columns : Axis} (hbatch : batch < Size.limit)
    (hlt : batch * outs * rows.outputs * columns.outputs < Size.limit)
    (h : Size.signedLimit ≤ batch * outs * rows.outputs * columns.outputs * 4) :
    c.slide image batch outs channels rows columns = .error .overflow := by
  unfold slide
  rw [(Size.product_four hbatch rows.outputs_pos columns.outputs_pos).2 ⟨hlt, rfl⟩,
    Outcome.ok_bind, Size.checkRoom, if_neg (Nat.not_lt.2 h)]
  rfl

section

variable {c : Convolution} {image : Tensor}
  {batch channels height width outs kernelHeight kernelWidth : Nat}

variable (hi : image.dims = [batch, channels, height, width])
  (hw : c.weights.dims = [outs, channels, kernelHeight, kernelWidth])

include hi hw

theorem apply_eq (hstrides : c.strides.1 ≠ 0 ∧ c.strides.2 ≠ 0)
    (h : Measured (c.rows height kernelHeight) (c.columns width kernelWidth)) :
    c.apply image =
      if (c.rows height kernelHeight).span ≤ (c.rows height kernelHeight).room ∧
          (c.columns width kernelWidth).span ≤ (c.columns width kernelWidth).room then
        liftM (c.slide image batch outs channels (c.rows height kernelHeight)
          (c.columns width kernelWidth))
      else Failure.refuse (.kernelTooLarge kernelHeight kernelWidth height width) := by
  have hspanRows : Convolution.span c.dilation.1 kernelHeight =
      .ok (c.rows height kernelHeight).span := span_eq_ok.2 ⟨h.cellRows, h.spanRows, rfl⟩
  have hspanColumns : Convolution.span c.dilation.2 kernelWidth =
      .ok (c.columns width kernelWidth).span := span_eq_ok.2 ⟨h.cellColumns, h.spanColumns, rfl⟩
  have hroomRows : padded height c.padding.1 = .ok (c.rows height kernelHeight).room :=
    padded_eq_ok.2 ⟨h.roomRows, rfl⟩
  unfold apply
  simp only [hi, hw, hspanRows, hspanColumns, hroomRows, Failure.lift_ok, Outcome.ok_bind]
  rw [if_neg (fun h => h rfl), if_neg (by omega)]
  by_cases hrows : (c.rows height kernelHeight).span ≤ (c.rows height kernelHeight).room
  · have hroomColumns : padded width c.padding.2 = .ok (c.columns width kernelWidth).room :=
      padded_eq_ok.2 ⟨h.roomColumns hrows, rfl⟩
    simp only [hroomColumns, Failure.lift_ok, Outcome.ok_bind]
    rw [if_neg (Nat.not_lt.2 hrows)]
    by_cases hcolumns : (c.columns width kernelWidth).span ≤ (c.columns width kernelWidth).room
    · rw [if_neg (Nat.not_lt.2 hcolumns), if_pos ⟨hrows, hcolumns⟩]
      simp only [slide, Failure.lift_bind]
      rfl
    · rw [if_pos (Nat.not_le.1 hcolumns), if_neg fun hfit => hcolumns hfit.2]
      rfl
  · rw [if_pos (Nat.not_le.1 hrows), if_neg fun hfit => hrows hfit.1]
    rfl

/-! ## All outputs -/

variable (himage : image.WellFormed) (hweights : c.weights.WellFormed)
  (hroomRows : (c.rows height kernelHeight).room < Size.limit)
  (hroomColumns : (c.columns width kernelWidth).room < Size.limit)
  (hfitRows : (c.rows height kernelHeight).span ≤ (c.rows height kernelHeight).room)
  (hfitColumns : (c.columns width kernelWidth).span ≤ (c.columns width kernelWidth).room)

include himage hweights hroomRows hroomColumns hfitRows hfitColumns

/-- The sums exist if their number has room in memory and none of their cells crosses. -/
theorem isOk_slide (hbatch : batch < Size.limit) :
    (c.slide image batch outs channels (c.rows height kernelHeight)
      (c.columns width kernelWidth)).isOk ↔
      batch * outs * (c.rows height kernelHeight).outputs * (c.columns width kernelWidth).outputs
          * 4 < Size.signedLimit ∧
        (0 < batch → 0 < outs → 0 < channels → ∀ y < (c.rows height kernelHeight).outputs,
          ∀ x < (c.columns width kernelWidth).outputs,
            InRange (c.rows height kernelHeight) (c.columns width kernelWidth) y x) := by
  have haccumulate : ∀ b < batch, ∀ o < outs, ∀ y < (c.rows height kernelHeight).outputs,
      ∀ x < (c.columns width kernelWidth).outputs,
        (c.accumulate image.data.toArray c.weights.data.toArray channels height width kernelHeight
          kernelWidth b o y x).isOk ↔ ∀ channel < channels,
            InRange (c.rows height kernelHeight) (c.columns width kernelWidth) y x :=
    fun b hb o ho y hy x hx => isOk_accumulate hi hw himage hweights hb ho hroomRows hroomColumns
      (fun ky hky => Axis.reach_lt hfitRows hy hky) (fun kx hkx => Axis.reach_lt hfitColumns hx hkx)
  have hroom : ∀ m u, Size.checkRoom m = .ok u ↔ m * 4 < Size.signedLimit := by
    simp [Size.checkRoom]
  have hsums := isOk_fill (n := batch) (o := outs)
    (r := (c.rows height kernelHeight).outputs) (s := (c.columns width kernelWidth).outputs)
    (f := c.accumulate image.data.toArray c.weights.data.toArray channels height width kernelHeight
      kernelWidth)
  unfold slide
  simp only [Outcome.isOk_bind, Size.product_four hbatch (Axis.outputs_pos _) (Axis.outputs_pos _),
    hroom]
  constructor
  · rintro ⟨total, ⟨-, rfl⟩, _, hlt, data, hdata, -⟩
    refine ⟨hlt, ?_⟩
    intro hb ho hchannel y hy x hx
    have hzero := hsums.1 (Outcome.isOk_of_eq_ok hdata) 0 hb 0 ho y hy x hx
    exact (haccumulate 0 hb 0 ho y hy x hx).1 hzero 0 hchannel
  · rintro ⟨hlt, hrange⟩
    have hlimit := Size.signedLimit_lt_limit
    refine ⟨_, ⟨by omega, rfl⟩, ⟨⟩, hlt, ?_⟩
    have hok := hsums.2 fun b hb o ho y hy x hx => (haccumulate b hb o ho y hy x hx).2
      fun _ hchannel => hrange (Nat.zero_lt_of_lt hb) (Nat.zero_lt_of_lt ho)
        (Nat.zero_lt_of_lt hchannel) y hy x hx
    obtain ⟨data, hdata⟩ := Outcome.exists_of_isOk hok
    exact ⟨data, hdata, rfl⟩

/-- The sums are the elements of the result, each at the index of its output. -/
theorem elementAt?_of_slide (hbatch : batch < Size.limit) (hheight : height < Size.signedLimit)
    (hwidth : width < Size.signedLimit) {u : Tensor}
    (h : c.slide image batch outs channels (c.rows height kernelHeight)
      (c.columns width kernelWidth) = .ok u) :
    ∀ b < batch, ∀ o < outs, ∀ y < (c.rows height kernelHeight).outputs,
      ∀ x < (c.columns width kernelWidth).outputs, ∃ products,
        (taps channels (c.rows height kernelHeight) (c.columns width kernelWidth) y x).mapM
            (c.product? image b o) = some products ∧
          u.elementAt? [b, o, y, x] = some (products.foldl (· + ·) .zero) := by
  unfold slide at h
  obtain ⟨total, htotal, h⟩ := Outcome.bind_eq_ok.1 h
  obtain ⟨-, rfl⟩ :=
    (Size.product_four hbatch (Axis.outputs_pos _) (Axis.outputs_pos _)).1 htotal
  obtain ⟨_, -, h⟩ := Outcome.bind_eq_ok.1 h
  obtain ⟨data, hdata, h⟩ := Outcome.bind_eq_ok.1 h
  cases h
  intro b hb o ho y hy x hx
  have hp := Dims.position?_four.2 ⟨hb, ho, hy, hx, rfl⟩
  obtain ⟨s, hsum, hs⟩ := getElem?_of_fill hdata hb ho hy hx
  obtain ⟨products, hproducts, rfl⟩ := accumulate_eq_ok hi hw himage hweights hb ho hroomRows
    hroomColumns (fun ky hky => Axis.reach_lt hfitRows hy hky)
    (fun kx hkx => Axis.reach_lt hfitColumns hx hkx) hheight hwidth hsum
  exact ⟨products, hproducts, (Tensor.elementAt?_of_position? hp).trans hs⟩

end

/-- A kernel that is larger than the padded image in one of the directions is refused. Every other
convolution with sizes below the signed limit succeeds if its elements have room in memory, and
stops otherwise. The result has as many rows and columns as there are steps for the kernel, and its
element at an index is the sum, from zero on, of the products at the taps of the index, all of which
there are. -/
theorem apply_cases {c : Convolution} {image : Tensor}
    {batch channels height width outs kernelHeight kernelWidth : Nat}
    (hi : image.dims = [batch, channels, height, width])
    (hw : c.weights.dims = [outs, channels, kernelHeight, kernelWidth])
    (himage : image.WellFormed) (hweights : c.weights.WellFormed) (hbatch : batch < Size.limit)
    (hcells : 0 < kernelHeight ∧ 0 < kernelWidth) (hstrides : 0 < c.strides.1 ∧ 0 < c.strides.2)
    {rows columns : Axis} (hrows : rows = c.rows height kernelHeight)
    (hcolumns : columns = c.columns width kernelWidth)
    (hroom : rows.room < Size.signedLimit ∧ columns.room < Size.signedLimit)
    (hspan : rows.span < Size.signedLimit ∧ columns.span < Size.signedLimit) :
    (rows.room < rows.span ∨ columns.room < columns.span → c.apply image =
        Failure.refuse (.kernelTooLarge kernelHeight kernelWidth height width)) ∧
      (rows.span ≤ rows.room → columns.span ≤ columns.room →
        (batch * outs * rows.outputs * columns.outputs < Size.limit →
          Size.signedLimit ≤ batch * outs * rows.outputs * columns.outputs * 4 →
            c.apply image = Failure.stop .overflow) ∧
        (batch * outs * rows.outputs * columns.outputs * 4 < Size.signedLimit →
          ∃ u, c.apply image = .ok u ∧ u.WellFormed ∧
            u.dims = [batch, outs, rows.outputs, columns.outputs] ∧
            ∀ b < batch, ∀ o < outs, ∀ y < rows.outputs, ∀ x < columns.outputs, ∃ products,
              (taps channels rows columns y x).mapM (c.product? image b o) = some products ∧
                u.elementAt? [b, o, y, x] = some (products.foldl (· + ·) .zero))) := by
  subst hrows hcolumns
  have hlimit := Size.signedLimit_lt_limit
  have hmeasured : Measured (c.rows height kernelHeight) (c.columns width kernelWidth) :=
    ⟨hcells.1, hcells.2, by omega, by omega, by omega, fun _ => by omega⟩
  rw [apply_eq hi hw ⟨by omega, by omega⟩ hmeasured]
  refine ⟨fun h => if_neg (by omega), fun hfitRows hfitColumns => ?_⟩
  rw [if_pos ⟨hfitRows, hfitColumns⟩]
  refine ⟨?_, ?_⟩
  · intro hlt h
    rw [slide_of_no_room hbatch hlt h]
    rfl
  · intro h
    have hroomRows := hroom.1.trans hlimit
    have hroomColumns := hroom.2.trans hlimit
    have hok := (isOk_slide hi hw himage hweights hroomRows hroomColumns hfitRows hfitColumns
      hbatch).2 ⟨h, ?_⟩
    · obtain ⟨u, hu⟩ := Outcome.exists_of_isOk hok
      have happly : c.apply image = .ok u := by
        rw [apply_eq hi hw ⟨by omega, by omega⟩ hmeasured, if_pos ⟨hfitRows, hfitColumns⟩, hu]
        rfl
      have hsum := elementAt?_of_slide hi hw himage hweights hroomRows hroomColumns
        hfitRows hfitColumns hbatch (Axis.extent_le_room.trans_lt hroom.1)
        (Axis.extent_le_room.trans_lt hroom.2) hu
      exact ⟨u, Failure.lift_eq_ok.2 hu, wellFormed_apply happly, dims_of_slide hu, hsum⟩
    · intro _ _ _ y hy x hx
      exact inRange_of_room hroom.1 hroom.2 (fun ky hky => Axis.reach_lt hfitRows hy hky)
        fun kx hkx => Axis.reach_lt hfitColumns hx hkx

/-- A kernel of two rows and two columns, moved by two columns at a time over an image that is
padded above and below. -/
def strip : Convolution where
  weights := ⟨[1, 1, 2, 2], [⟨0x3F800000⟩, ⟨0x40000000⟩, ⟨0x40400000⟩, ⟨0x40800000⟩]⟩
  bias := none
  strides := (1, 2)
  padding := (1, 0)
  dilation := (1, 2)

def row : Tensor :=
  ⟨[1, 1, 1, 5], [⟨0x3F800000⟩, ⟨0x40000000⟩, ⟨0x40400000⟩, ⟨0x40800000⟩, ⟨0x40A00000⟩]⟩

theorem apply_strip : ∃ u, strip.apply row = .ok u ∧ u.dims = [1, 1, 2, 2] ∧
    u.elementAt? [0, 0, 0, 1] = some ⟨0x41E80000⟩ := by
  have hi : row.dims = [1, 1, 1, 5] := rfl
  have hw : strip.weights.dims = [1, 1, 2, 2] := rfl
  have h := apply_cases hi hw (by decide) (by decide) (by decide) (by decide) (by decide) rfl rfl
    (by decide) (by decide)
  obtain ⟨-, h⟩ := h
  obtain ⟨u, hu, -, hdims, hsum⟩ := (h (by decide) (by decide)).2 (by decide)
  obtain ⟨products, hproducts, he⟩ := hsum 0 (by decide) 0 (by decide) 0 (by decide) 1 (by decide)
  have hterms : (taps 1 (strip.rows 1 2) (strip.columns 5 2) 0 1).mapM (strip.product? row 0 0) =
      some [⟨0x41100000⟩, ⟨0x41A00000⟩] := by decide +kernel
  rw [hterms] at hproducts
  cases hproducts
  have hvalue : ([⟨0x41100000⟩, ⟨0x41A00000⟩] : List Single).foldl (· + ·) .zero =
      ⟨0x41E80000⟩ := by decide +kernel
  exact ⟨u, hu, hdims, he.trans (congrArg some hvalue)⟩

def point : Convolution where
  weights := ⟨[1, 0, 1, 1], []⟩
  bias := none
  strides := (1, 1)
  padding := (0, 0)
  dilation := (1, 1)

/-- An image without channels, of as many pixels as no memory holds. -/
def vast : Tensor := ⟨[1, 0, 2 ^ 31, 2 ^ 30], []⟩

/-- The sizes are machine sizes and the kernel fits, but the sums have no room. -/
theorem apply_vast : vast.WellFormed ∧ point.weights.WellFormed ∧
    (point.rows (2 ^ 31) 1).room < Size.signedLimit ∧
    (point.columns (2 ^ 30) 1).room < Size.signedLimit ∧
    (point.rows (2 ^ 31) 1).span ≤ (point.rows (2 ^ 31) 1).room ∧
    (point.columns (2 ^ 30) 1).span ≤ (point.columns (2 ^ 30) 1).room ∧
    1 * 1 * (point.rows (2 ^ 31) 1).outputs * (point.columns (2 ^ 30) 1).outputs <
      Size.signedLimit ∧
    point.apply vast = Failure.stop .overflow := by
  decide +kernel

end Convolution

end Dataflow
