import Dataflow.Number.Shortest
import Dataflow.Proofs.Number.Order
import Mathlib.Data.Nat.Cast.Order.Field

/-!
# Shortest decimals lie within the interval

The decimal that is found for a finite number has at most seventeen digits and lies in the interval
of the numbers that this one is the nearest to. So it is positive, below the first number that is
rounded to infinity, and above the largest finite one only if it was found for that.
-/

namespace Dataflow

namespace Decimal

def value (d : Decimal) : ℚ := d.digits * 10 ^ d.exponent

theorem value_strip (fuel : Nat) (d : Decimal) : (strip fuel d).value = d.value := by
  induction fuel generalizing d with
  | zero => rfl
  | succ fuel ih =>
      rw [strip]
      split
      · next h =>
        have hten : d.digits = d.digits / 10 * 10 :=
          (Nat.div_mul_cancel (Nat.dvd_of_mod_eq_zero h.2)).symm
        rw [ih, value, value]
        conv_rhs => rw [hten]
        rw [zpow_add₀ (by norm_num)]
        push_cast
        ring
      · rfl

theorem onGrid_spec (n : Nat) {d : Nat} (hd : 0 < d) (g : Int) :
    0 < (onGrid n d g).2 ∧ ((onGrid n d g).1 : ℚ) / (onGrid n d g).2 = n / d / 10 ^ g := by
  have hdq : (d : ℚ) ≠ 0 := by positivity
  rw [onGrid]
  split
  · next hg =>
    obtain ⟨k, rfl⟩ := Int.eq_ofNat_of_zero_le hg
    refine ⟨Nat.mul_pos hd (Nat.pow_pos (by decide)), ?_⟩
    simp [div_div]
  · next hg =>
    obtain ⟨k, rfl⟩ : ∃ k : Nat, g = -(k : Int) := ⟨(-g).toNat, by omega⟩
    refine ⟨hd, ?_⟩
    simp [mul_div_right_comm]

theorem digits_strip_le (fuel : Nat) (d : Decimal) : (strip fuel d).digits ≤ d.digits := by
  induction fuel generalizing d with
  | zero => exact Nat.le_refl _
  | succ fuel ih =>
      rw [strip]
      split
      · exact (ih _).trans (Nat.div_le_self _ _)
      · exact Nat.le_refl _

theorem lt_floorLog10 {n d : Nat} (hn : 0 < n) (hd : 0 < d) :
    (n : ℚ) / d < 10 ^ (floorLog10 n d + 1) := by
  have hdq : (0 : ℚ) < d := by exact_mod_cast hd
  rw [floorLog10, div_lt_iff₀ hdq]
  split
  · next h =>
    have hlt := (Nat.length_toDigits_le_iff (b := 10) (by decide) Nat.length_toDigits_pos).1
      (Nat.le_refl (Nat.toDigits 10 (n / d)).length)
    rw [Int.sub_add_cancel, zpow_natCast]
    exact_mod_cast (Nat.div_lt_iff_lt_mul hd).1 hlt
  · next h =>
    obtain ⟨k, hk⟩ : ∃ k, (Nat.toDigits 10 ((d - 1) / n)).length = k + 1 :=
      Nat.exists_eq_succ_of_ne_zero (Nat.pos_iff_ne_zero.1 Nat.length_toDigits_pos)
    have hpow : 10 ^ k * n < d := by
      rcases Nat.eq_zero_or_pos k with rfl | hpos
      · omega
      · have hle : 10 ^ k ≤ (d - 1) / n := by
          refine Nat.le_of_not_lt fun hlt => ?_
          have := (Nat.length_toDigits_le_iff (b := 10) (by decide) hpos).2 hlt
          omega
        have := (Nat.le_div_iff_mul_le hn).1 hle
        omega
    have hexp : -((k + 1 : Nat) : Int) + 1 = -(k : Int) := by omega
    rw [hk, hexp, zpow_neg, zpow_natCast, ← div_eq_inv_mul, lt_div_iff₀ (by positivity), mul_comm]
    exact_mod_cast hpow

end Decimal

namespace BinaryFormat

/-- The interval reaches up to `x` and down to it, its ends included when it is closed. -/
def Interval.Holds (i : Interval) (x : ℚ) : Prop :=
  if i.closed then i.low * 2 ^ i.exponent ≤ x ∧ x ≤ i.high * 2 ^ i.exponent
  else i.low * 2 ^ i.exponent < x ∧ x < i.high * 2 ^ i.exponent

/-- Naturals compare like the rationals that they are multiples of, in two units. -/
theorem le_iff_of_units {x y : Nat} {x' y' s t : ℚ} (hs : 0 < s) (ht : 0 < t)
    (hx : (x : ℚ) * s = x' * t) (hy : (y : ℚ) * s = y' * t) : x ≤ y ↔ x' ≤ y' := by
  rw [← Nat.cast_le (α := ℚ), ← mul_le_mul_iff_of_pos_right hs, hx, hy,
    mul_le_mul_iff_of_pos_right ht]

/-- The interval's unit is `unit / d` steps of the grid, so that products decide whether a point of
the grid lies in the interval. -/
theorem Interval.holds_of_within {i : Interval} {g : Int} {unit d k : Nat} (hd : 0 < d)
    (hunit : (unit : ℚ) * 10 ^ g = 2 ^ i.exponent * d)
    (h : (if i.closed = true then decide (i.low * unit ≤ k * d ∧ k * d ≤ i.high * unit)
      else decide (i.low * unit < k * d ∧ k * d < i.high * unit)) = true) :
    i.Holds (k * 10 ^ g) := by
  have hdq : (0 : ℚ) < d := by exact_mod_cast hd
  have hg : (0 : ℚ) < 10 ^ g := by positivity
  have hend : ∀ a : Nat, ((a * unit : Nat) : ℚ) * 10 ^ g = a * 2 ^ i.exponent * d := fun a => by
    rw [Nat.cast_mul, mul_assoc, hunit, mul_assoc]
  have hmid : ((k * d : Nat) : ℚ) * 10 ^ g = k * 10 ^ g * d := by
    push_cast
    ring
  have hlow := le_iff_of_units hg hdq (hend i.low) hmid
  have hhigh := le_iff_of_units hg hdq hmid (hend i.high)
  have hlow' := le_iff_of_units hg hdq hmid (hend i.low)
  have hhigh' := le_iff_of_units hg hdq (hend i.high) hmid
  rw [Holds]
  split
  · next hc =>
    rw [if_pos hc, decide_eq_true_iff] at h
    exact ⟨hlow.1 h.1, hhigh.1 h.2⟩
  · next hc =>
    rw [if_neg hc, decide_eq_true_iff, ← Nat.not_le, ← Nat.not_le, hlow', hhigh', not_le,
      not_le] at h
    exact h

/-- The neighbours are those of `n / d`, the interval's value in steps of the grid. -/
theorem Interval.exists_grid (i : Interval) (g : Int) : ∃ unit d : Nat, 0 < d ∧
    (unit : ℚ) * 10 ^ g = 2 ^ i.exponent * d ∧
      Decimal.onGrid (scale 1 1 (-i.exponent)).1 (scale 1 1 (-i.exponent)).2 g = (unit, d) := by
  obtain ⟨hd, hunit⟩ := scale_spec 1 Nat.one_pos (-i.exponent)
  obtain ⟨hd', hunit'⟩ := Decimal.onGrid_spec (scale 1 1 (-i.exponent)).1 hd g
  generalize Decimal.onGrid (scale 1 1 (-i.exponent)).1 (scale 1 1 (-i.exponent)).2 g = ud
    at hd' hunit'
  obtain ⟨unit, d⟩ := ud
  refine ⟨unit, d, hd', ?_, rfl⟩
  have hdq : (0 : ℚ) < d := by exact_mod_cast hd'
  rw [hunit, Nat.cast_one, div_one, zpow_neg, one_div, inv_inv] at hunit'
  field_simp at hunit'
  linarith

/-- A neighbour that is taken lies in the interval. -/
theorem Interval.holds_of_hit? {i : Interval} {g : Int} {k : Nat} (h : i.hit? g = some k) :
    i.Holds (k * 10 ^ g) := by
  obtain ⟨unit, d, hd, hunit, he⟩ := i.exists_grid g
  simp only [hit?, he] at h
  split at h
  · next hk hk' =>
    split at h
    · cases h
      exact holds_of_within hd hunit hk
    · cases h
      exact holds_of_within hd hunit hk'
  · next hk _ =>
    cases h
    exact holds_of_within hd hunit hk
  · next _ hk' =>
    cases h
    exact holds_of_within hd hunit hk'
  · cases h

theorem Interval.hit?_le {i : Interval} {g : Int} {k : Nat} (h : i.hit? g = some k) :
    (k : ℚ) ≤ i.value * 2 ^ i.exponent / 10 ^ g + 1 := by
  obtain ⟨unit, d, hd, hunit, he⟩ := i.exists_grid g
  have hdq : (0 : ℚ) < d := by exact_mod_cast hd
  have hg : (0 : ℚ) < 10 ^ g := by positivity
  have hbelow : ((i.value * unit / d : Nat) : ℚ) ≤ i.value * 2 ^ i.exponent / 10 ^ g := by
    calc ((i.value * unit / d : Nat) : ℚ) ≤ (i.value * unit : Nat) / d := Nat.cast_div_le
      _ = i.value * 2 ^ i.exponent / 10 ^ g := by
          rw [div_eq_div_iff hdq.ne' hg.ne', Nat.cast_mul, mul_assoc, hunit, mul_assoc]
  have hk : k ≤ i.value * unit / d + 1 := by
    simp only [hit?, he] at h
    split at h
    · split at h <;> cases h <;> omega
    · cases h
      omega
    · cases h
      omega
    · cases h
  have hkq : (k : ℚ) ≤ (i.value * unit / d : Nat) + 1 := by exact_mod_cast hk
  linarith

variable {fmt : BinaryFormat} {magnitude : Nat}

/-- A finite magnitude is less than `2 ^ precision` steps of a grid no coarser than the last. -/
theorem decode_spec (hprecision : 1 ≤ fmt.precision) (hexponents : 2 ≤ fmt.exponents)
    (h : magnitude < fmt.infinity) :
    (fmt.decode magnitude).1 < 2 ^ fmt.precision ∧
      (fmt.decode magnitude).2 ≤ fmt.lowest + fmt.exponents - 2 := by
  have hpos : 0 < fmt.binade := binade_pos
  have hbinade := two_mul_binade hprecision
  have hfield : magnitude / fmt.binade < fmt.exponents := (Nat.div_lt_iff_lt_mul hpos).2 h
  have hrest := Nat.mod_lt magnitude hpos
  simp only [decode]
  split
  · exact ⟨by omega, by omega⟩
  · exact ⟨by dsimp only; omega, by dsimp only; omega⟩

theorem lowest_le_decode (fmt : BinaryFormat) (magnitude : Nat) : fmt.lowest ≤ (fmt.decode magnitude).2 := by
  simp only [decode]
  split
  · exact le_rfl
  · next h =>
    have hfield : 1 ≤ ((magnitude / fmt.binade : Nat) : Int) := by
      exact_mod_cast Nat.pos_of_ne_zero h
    exact le_add_of_nonneg_right (Int.sub_nonneg_of_le hfield)

theorem decode_fst_pos (h : 0 < magnitude) : 0 < (fmt.decode magnitude).1 := by
  have hpos : 0 < fmt.binade := binade_pos
  have hdiv := Nat.div_add_mod magnitude fmt.binade
  simp only [decode]
  split
  · next hfield =>
    rw [hfield, Nat.mul_zero, Nat.zero_add] at hdiv
    exact h.trans_eq hdiv.symm
  · exact Nat.add_pos_right _ hpos

/-- The first number that is rounded to infinity lies half a step above the largest one. -/
def overflow (fmt : BinaryFormat) : ℚ :=
  (2 ^ fmt.precision - 1 / 2) * 2 ^ (fmt.lowest + fmt.exponents - 2)

/-- What is rounded to a positive finite number lies between half the smallest one and the first that
is rounded to infinity. -/
theorem Interval.Holds.bounds (hprecision : 1 ≤ fmt.precision) (hexponents : 2 ≤ fmt.exponents)
    (hpos : 0 < magnitude) (hfinite : magnitude < fmt.infinity) {x : ℚ}
    (h : (fmt.interval magnitude).Holds x) : 2 ^ (fmt.lowest - 1) ≤ x ∧ x < fmt.overflow := by
  obtain ⟨hm, hq⟩ := decode_spec hprecision hexponents hfinite
  have hmpos : 0 < (fmt.decode magnitude).1 := decode_fst_pos hpos
  have hlowest := lowest_le_decode fmt magnitude
  simp only [interval] at h
  generalize fmt.decode magnitude = mq at h hm hq hmpos hlowest
  obtain ⟨m, q⟩ := mq
  dsimp only at h hm hq hmpos hlowest
  have hquarter : (0 : ℚ) < 2 ^ (q - 2) := by positivity
  have hstep : (4 : ℚ) * 2 ^ (q - 2) ≤ 2 ^ (fmt.lowest + fmt.exponents - 2) := by
    have hsplit : (4 : ℚ) * 2 ^ (q - 2) = 2 ^ q := by
      rw [zpow_sub₀ (by norm_num), show (2 : ℚ) ^ (2 : ℤ) = 4 by norm_num]
      ring
    rw [hsplit]
    exact zpow_le_zpow_right₀ (by norm_num) hq
  have hmq : (m : ℚ) + 1 ≤ 2 ^ fmt.precision := by exact_mod_cast hm
  have hbelow : 2 ≤ 4 * m - (if m = fmt.binade ∧ fmt.lowest < q then 1 else 2) := by
    split <;> omega
  have hlow : (2 : ℚ) ^ (fmt.lowest - 1) ≤
      ((4 * m - (if m = fmt.binade ∧ fmt.lowest < q then 1 else 2) : Nat) : ℚ) * 2 ^ (q - 2) := by
    calc (2 : ℚ) ^ (fmt.lowest - 1) ≤ 2 ^ (q - 1) := zpow_le_zpow_right₀ (by norm_num) (by omega)
      _ = 2 * 2 ^ (q - 2) := by
          rw [← zpow_one_add₀ (by norm_num)]
          congr 1
          ring
      _ ≤ _ := mul_le_mul_of_nonneg_right (by exact_mod_cast hbelow) hquarter.le
  rw [Interval.Holds] at h
  dsimp only at h
  push_cast at h hlow
  split at h
  · next heven =>
    have hm' : m + 2 ≤ 2 ^ fmt.precision := by
      have htwo : 2 ∣ 2 ^ fmt.precision := dvd_pow_self 2 (by omega)
      rw [decide_eq_true_iff] at heven
      omega
    have hmq' : (m : ℚ) + 2 ≤ 2 ^ fmt.precision := by exact_mod_cast hm'
    refine ⟨hlow.trans h.1, h.2.trans_lt ?_⟩
    rw [overflow]
    nlinarith
  · refine ⟨hlow.trans h.1.le, h.2.trans_le ?_⟩
    rw [overflow]
    nlinarith

/-- What is rounded to a finite number lies below the next magnitude. -/
theorem Interval.Holds.le_value_succ {x : ℚ} (h : (fmt.interval magnitude).Holds x) :
    x ≤ fmt.value (magnitude + 1) := by
  have hstep : (2 : ℚ) ^ (fmt.decode magnitude).2 = 4 * 2 ^ ((fmt.decode magnitude).2 - 2) := by
    rw [show (4 : ℚ) = 2 ^ (2 : ℤ) by norm_num, ← zpow_add₀ (by norm_num)]
    congr 1
    ring
  have hquarter : (0 : ℚ) < 2 ^ ((fmt.decode magnitude).2 - 2) := by positivity
  have hhigh : x ≤ ((4 * (fmt.decode magnitude).1 + 2 : Nat) : ℚ) *
      2 ^ ((fmt.decode magnitude).2 - 2) := by
    rw [Interval.Holds] at h
    split at h
    · exact h.2
    · exact h.2.le
  push_cast at hhigh
  rw [value_succ, BinaryFormat.value, hstep]
  linarith

/-- The shortest decimal of a magnitude, if it is not missed, lies in the interval. -/
theorem shortest_spec (fmt : BinaryFormat) (magnitude : Nat) :
    fmt.shortest magnitude = ⟨0, 0⟩ ∨
      (fmt.interval magnitude).Holds (fmt.shortest magnitude).value := by
  simp only [shortest]
  generalize hfound : (List.range 17).findSome? _ = found
  cases found with
  | none => exact Or.inl rfl
  | some d =>
      obtain ⟨count, -, hhit⟩ := List.exists_of_findSome?_eq_some hfound
      obtain ⟨k, hk, rfl⟩ := Option.map_eq_some_iff.1 hhit
      right
      rw [Option.getD_some, Decimal.value_strip]
      exact Interval.holds_of_hit? hk

theorem digits_shortest_le (fmt : BinaryFormat) (hpos : 0 < magnitude) :
    (fmt.shortest magnitude).digits ≤ 10 ^ 17 := by
  simp only [shortest]
  obtain ⟨hd, hratio⟩ := scale_spec (fmt.decode magnitude).1 Nat.one_pos
    (-(fmt.decode magnitude).2)
  generalize scale (fmt.decode magnitude).1 1 (-(fmt.decode magnitude).2) = nd at hd hratio
  obtain ⟨n, d⟩ := nd
  dsimp only at hd hratio ⊢
  refine (Decimal.digits_strip_le _ _).trans ?_
  generalize hfound : (List.range 17).findSome? _ = found
  cases found with
  | none => exact Nat.zero_le _
  | some dec =>
      obtain ⟨count, hcount, hhit⟩ := List.exists_of_findSome?_eq_some hfound
      obtain ⟨k, hk, rfl⟩ := Option.map_eq_some_iff.1 hhit
      rw [Option.getD_some]
      have hm : (0 : ℚ) < (fmt.decode magnitude).1 := by exact_mod_cast decode_fst_pos hpos
      have hn : 0 < n := by
        refine Nat.pos_of_ne_zero fun hzero => ?_
        rw [hzero, Nat.cast_zero, zero_div, Nat.cast_one, div_one] at hratio
        exact absurd hratio (by positivity)
      have hvalue : ((fmt.interval magnitude).value : ℚ) * 2 ^ (fmt.interval magnitude).exponent =
          n / d := by
        rw [hratio, Nat.cast_one, div_one, zpow_neg, div_inv_eq_mul]
        simp only [interval]
        rw [zpow_sub₀ (by norm_num)]
        push_cast
        ring
      have hbound := Interval.hit?_le hk
      rw [hvalue] at hbound
      have hsteps : (n : ℚ) / d / 10 ^ (Decimal.floorLog10 n d - count) < 10 ^ (count + 1) := by
        rw [div_lt_iff₀ (by positivity), ← zpow_natCast, ← zpow_add₀ (by norm_num)]
        refine (Decimal.lt_floorLog10 hn hd).trans_eq ?_
        congr 1
        push_cast
        ring
      have hkq : (k : ℚ) < (10 ^ (count + 1) + 1 : Nat) := by
        push_cast
        linarith
      have hkn : k < 10 ^ (count + 1) + 1 := by exact_mod_cast hkq
      have hpow : 10 ^ (count + 1) ≤ 10 ^ 17 :=
        Nat.pow_le_pow_right (by decide) (List.mem_range.1 hcount)
      exact (Nat.lt_succ_iff.1 hkn).trans hpow

end BinaryFormat

end Dataflow
