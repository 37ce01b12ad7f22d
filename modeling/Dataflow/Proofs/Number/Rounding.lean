import Dataflow.Number.Binary
import Mathlib.Algebra.Order.Field.Power
import Mathlib.Data.Rat.Lemmas
import Mathlib.Tactic.FieldSimp
import Mathlib.Tactic.Linarith
import Mathlib.Tactic.Positivity
import Mathlib.Tactic.Ring

/-!
# Rounding on the grid of a binade

A positive rational is rounded to a multiple of the step of its binade. The binade is found by
comparing the number with a power of two, and the multiple is at most the first one of the next
binade.
-/

namespace Dataflow.BinaryFormat

theorem scale_spec (n : Nat) {d : Nat} (hd : 0 < d) (e : Int) :
    0 < (scale n d e).2 ∧ ((scale n d e).1 : ℚ) / (scale n d e).2 = n / d / 2 ^ e := by
  have hdq : (d : ℚ) ≠ 0 := by positivity
  rw [scale]
  split
  · next he =>
    obtain ⟨k, rfl⟩ := Int.eq_ofNat_of_zero_le he
    refine ⟨Nat.mul_pos hd (Nat.pow_pos (by decide)), ?_⟩
    simp [div_div]
  · next he =>
    obtain ⟨k, rfl⟩ : ∃ k : Nat, e = -(k : Int) := ⟨(-e).toNat, by omega⟩
    refine ⟨hd, ?_⟩
    simp [mul_div_right_comm]

theorem floorLog2_spec {n d : Nat} (hn : 0 < n) (hd : 0 < d) :
    (2 : ℚ) ^ floorLog2 n d ≤ n / d ∧ (n : ℚ) / d < 2 ^ (floorLog2 n d + 1) := by
  have hdq : (0 : ℚ) < d := by exact_mod_cast hd
  have hlow : ∀ {k : Nat}, 0 < k → (2 : ℚ) ^ (k.log2 : Int) ≤ k := fun hk => by
    exact_mod_cast Nat.log2_self_le (Nat.pos_iff_ne_zero.1 hk)
  have hhigh : ∀ k : Nat, (k : ℚ) < 2 ^ ((k.log2 : Int) + 1) := fun k => by
    exact_mod_cast Nat.lt_log2_self (n := k)
  obtain ⟨hpos, hscaled⟩ := scale_spec n hd ((n.log2 : Int) - d.log2)
  have hposq : (0 : ℚ) < ((scale n d ((n.log2 : Int) - d.log2)).2 : ℚ) := by exact_mod_cast hpos
  have hpow : (0 : ℚ) < 2 ^ ((n.log2 : Int) - d.log2) := by positivity
  have htest : (scale n d ((n.log2 : Int) - d.log2)).2 ≤ (scale n d ((n.log2 : Int) - d.log2)).1 ↔
      (2 : ℚ) ^ ((n.log2 : Int) - d.log2) ≤ n / d := by
    rw [← Nat.cast_le (α := ℚ), ← one_le_div hposq, hscaled, one_le_div hpow]
  simp only [floorLog2]
  split
  · next h =>
    refine ⟨htest.1 h, ?_⟩
    calc (n : ℚ) / d < 2 ^ ((n.log2 : Int) + 1) / 2 ^ (d.log2 : Int) :=
          div_lt_div₀ (hhigh n) (hlow hd) (by positivity) (by positivity)
      _ = 2 ^ ((n.log2 : Int) - d.log2 + 1) := by
          rw [← zpow_sub₀ (by norm_num)]
          ring_nf
  · next h =>
    rw [Int.sub_add_cancel]
    refine ⟨?_, not_le.1 (mt htest.2 h)⟩
    calc (2 : ℚ) ^ ((n.log2 : Int) - d.log2 - 1)
        = 2 ^ (n.log2 : Int) / 2 ^ ((d.log2 : Int) + 1) := by
          rw [← zpow_sub₀ (by norm_num)]
          ring_nf
      _ ≤ n / d := div_le_div₀ (by positivity) (hlow hn) hdq (hhigh d).le

theorem roundHalfEven_le (n d : Nat) : roundHalfEven n d ≤ n / d + 1 := by
  simp only [roundHalfEven]
  split
  · exact Nat.le_succ _
  · split
    · exact Nat.le_refl _
    · omega

theorem roundHalfEven_lt {n d b : Nat} (hd : 0 < d) (h : (n : ℚ) / d < b - 1 / 2) :
    roundHalfEven n d < b := by
  have hdq : (0 : ℚ) < d := by exact_mod_cast hd
  have hlt : 2 * n + d < 2 * b * d := by
    rw [div_lt_iff₀ hdq] at h
    have hq : (2 : ℚ) * n + d < 2 * b * d := by linarith
    exact_mod_cast hq
  have hdiv := Nat.div_add_mod n d
  by_cases hr : 2 * (n % d) < d
  · have hq : n / d < b := (Nat.div_lt_iff_lt_mul hd).2 (by lia)
    rwa [roundHalfEven, if_pos hr]
  · have hq : n / d + 1 < b := by
      refine Nat.lt_of_mul_lt_mul_left (a := 2 * d) ?_
      calc 2 * d * (n / d + 1) = 2 * (d * (n / d)) + 2 * d := by ring
        _ ≤ 2 * n + d := by omega
        _ < 2 * d * b := by linarith
    exact (roundHalfEven_le n d).trans_lt hq

variable {fmt : BinaryFormat}

theorem binade_pos : 0 < fmt.binade := Nat.pow_pos (by decide)

/-- The numbers below `2 ^ precision` fill two binades. -/
theorem two_mul_binade (hprecision : 1 ≤ fmt.precision) :
    2 * fmt.binade = 2 ^ fmt.precision := by
  have hbinade : fmt.binade = 2 ^ (fmt.precision - 1) := rfl
  rw [hbinade, ← Nat.pow_succ', Nat.succ_eq_add_one, Nat.sub_add_cancel hprecision]

section

variable {n d : Nat} {q : Int}

/-- On the grid of its binade a number is at most rounded up to the next one. -/
theorem roundHalfEven_scale_lt (hprecision : 1 ≤ fmt.precision) (hn : 0 < n) (hd : 0 < d)
    (hq : floorLog2 n d + 1 ≤ fmt.precision + q) :
    roundHalfEven (scale n d q).1 (scale n d q).2 < 2 * fmt.binade + 1 := by
  obtain ⟨hscale, hratio⟩ := scale_spec n hd q
  have hstep : (0 : ℚ) < 2 ^ q := by positivity
  have hfit : (n : ℚ) / d < 2 ^ fmt.precision * 2 ^ q := by
    rw [← zpow_natCast, ← zpow_add₀ (by norm_num)]
    exact (floorLog2_spec hn hd).2.trans_le (zpow_le_zpow_right₀ (by norm_num) hq)
  refine roundHalfEven_lt hscale ?_
  rw [hratio, div_lt_iff₀ hstep, two_mul_binade hprecision]
  refine hfit.trans (mul_lt_mul_of_pos_right ?_ hstep)
  push_cast
  linarith

end

end Dataflow.BinaryFormat
