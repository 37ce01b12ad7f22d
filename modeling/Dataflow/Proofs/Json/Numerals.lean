import Dataflow.Proofs.Json.Literals
import Dataflow.Proofs.Number.Shortest

/-!
# Reading floating point literals

A significand is scaled by a power of ten in floating point, so a literal that is close to the
largest double may be scaled to infinity and refused, although its value is below that number.
This does not happen to literals of at most seventeen digits. Both factors and the product are
rounded in order, so it is enough to look at the largest significand that each of the largest powers
leaves room for.
-/

namespace Dataflow.Json

open BinaryFormat

/-! ## Scaling -/

def largest : Nat :=
  (2 ^ double.precision - 1) * 2 ^ (double.lowest + double.exponents - 2).toNat

theorem largest_lt : largest < 10 ^ (tableLimit + 1) := by decide +kernel

theorem value_last_double : double.value (double.infinity - 1) = largest := by
  have hdecode : double.decode (double.infinity - 1) = (2 ^ double.precision - 1,
      ((double.lowest + double.exponents - 2).toNat : Int)) := by decide +kernel
  rw [value, hdecode, largest, zpow_natCast, Nat.cast_mul, Nat.cast_pow, Nat.cast_ofNat]

theorem power_mono {e e' : Nat} (h : e ≤ e') : power e ≤ power e' := by
  refine round_mono (by decide) Nat.one_pos Nat.one_pos ?_
  have hpow : Nat.pow 10 e ≤ Nat.pow 10 e' := Nat.pow_le_pow_right (by decide) h
  rw [Nat.cast_one, div_one, div_one]
  exact_mod_cast hpow

theorem mul_power_mono {m m' e e' : Nat} (hm : m ≤ m') (he : e ≤ e') :
    double.mul (double.round m 1) (power e) ≤ double.mul (double.round m' 1) (power e') := by
  refine mul_mono (by decide) (round_mono (by decide) Nat.one_pos Nat.one_pos ?_) (power_mono he)
  simpa using hm

theorem mul_power_lt_infinity_of_digits :
    double.mul (double.round (10 ^ 17) 1) (power 291) < double.infinity := by
  decide +kernel

theorem mul_power_lt_infinity_of_room : ∀ k < 17,
    double.mul (double.round (largest / 10 ^ (292 + k)) 1) (power (292 + k)) < double.infinity := by
  decide +kernel

/-- A product of at most seventeen digits and a power of ten is not rounded to infinity if it is no
larger than the largest double. -/
theorem mul_power_lt_infinity {m e : Nat} (he : e ≤ tableLimit) (hm : m ≤ 10 ^ 17)
    (hlargest : m * 10 ^ e ≤ largest) :
    double.mul (double.round m 1) (power e) < double.infinity := by
  rcases Nat.lt_or_ge 291 e with hlt | hle
  · obtain ⟨k, rfl⟩ := Nat.exists_eq_add_of_le (Nat.succ_le_of_lt hlt)
    have hroom : m ≤ largest / 10 ^ (292 + k) :=
      (Nat.le_div_iff_mul_le (Nat.pow_pos (by decide))).2 hlargest
    have hk : k < 17 := by
      rw [tableLimit] at he
      omega
    exact (mul_power_mono hroom le_rfl).trans_lt (mul_power_lt_infinity_of_room k hk)
  · exact (mul_power_mono hm hle).trans_lt mul_power_lt_infinity_of_digits

theorem isSome_scaleByPower_of_neg {e : Int} (he : e < 0) (m : Nat) :
    (scaleByPower m e).isSome = true := by
  induction m, e using scaleByPower.induct with
  | case1 m e _ hpos | case2 m e _ hpos => exact absurd hpos (Int.not_le.2 he)
  | case3 m e htable hneg =>
      rw [scaleByPower, if_pos htable, if_neg hneg]
      rfl
  | case4 e htable =>
      rw [scaleByPower, if_neg htable, if_pos rfl]
      rfl
  | case5 m e _ _ hpos => exact absurd hpos (Int.not_le.2 he)
  | case6 m e htable hm hneg ih =>
      rw [scaleByPower, if_neg htable, if_neg hm, if_neg hneg]
      refine ih ?_
      rw [tableLimit] at htable ⊢
      omega

theorem isSome_scaleByPower {m : Nat} {e : Int} (hm : m ≤ 10 ^ 17)
    (hlargest : (m : ℚ) * 10 ^ e ≤ largest) :
    (scaleByPower (double.round m 1) e).isSome = true := by
  rcases lt_or_ge e 0 with he | he
  · exact isSome_scaleByPower_of_neg he _
  · obtain ⟨k, rfl⟩ := Int.eq_ofNat_of_zero_le he
    have hprod : m * 10 ^ k ≤ largest := by
      rw [zpow_natCast] at hlargest
      exact_mod_cast hlargest
    rw [scaleByPower, Int.natAbs_natCast, if_pos he]
    by_cases hk : k ≤ tableLimit
    · rw [if_pos hk]
      dsimp only
      rw [if_pos (mul_power_lt_infinity hk hm hprod)]
      rfl
    · -- only zero can be scaled by a power this large
      have hzero : m = 0 := by
        by_contra hne
        have hpow : 10 ^ (tableLimit + 1) ≤ 10 ^ k :=
          Nat.pow_le_pow_right (by decide) (Nat.succ_le_of_lt (Nat.not_le.1 hk))
        have hmul : 10 ^ k ≤ m * 10 ^ k := Nat.le_mul_of_pos_left _ (Nat.pos_of_ne_zero hne)
        exact Nat.lt_irrefl _ (largest_lt.trans_le (hpow.trans (hmul.trans hprod)))
      rw [if_neg hk, if_pos (by rw [hzero]; rfl)]
      rfl

/-! ## Significands -/

namespace Number

theorem valueOf_append (ds es : List Char) :
    valueOf (ds ++ es) = valueOf ds * 10 ^ es.length + valueOf es := by
  simp only [valueOf, ← Nat.ofDigitChars_eq_foldl]
  rw [Nat.ofDigitChars_append, Nat.ofDigitChars_eq_ofDigitChars_zero, Nat.mul_comm]

theorem takeDigits_eq {m : Nat} {ds : List Char}
    (h : m * 10 ^ ds.length + valueOf ds < Size.limit) :
    takeDigits m ds = (m * 10 ^ ds.length + valueOf ds, []) := by
  induction ds generalizing m with
  | nil => simp [takeDigits, valueOf]
  | cons c ds ih =>
      have hcons : m * 10 ^ (c :: ds).length + valueOf (c :: ds) =
          (10 * m + (c.toNat - '0'.toNat)) * 10 ^ ds.length + valueOf ds := by
        have hsplit := valueOf_append [c] ds
        rw [List.singleton_append] at hsplit
        rw [hsplit, List.length_cons, Nat.pow_succ]
        simp only [valueOf, List.foldl_cons, List.foldl_nil]
        ring
      rw [hcons] at h ⊢
      have hpow : 1 ≤ 10 ^ ds.length := Nat.one_le_pow _ _ (by decide)
      have hnext : 10 * m + (c.toNat - '0'.toNat) < Size.limit := by
        refine lt_of_le_of_lt ?_ h
        nlinarith
      rw [takeDigits, if_pos hnext, ih h]

theorem significand_eq {n : Number} (h : valueOf (n.whole ++ n.fraction.getD []) < Size.limit) :
    n.significand =
      (valueOf (n.whole ++ n.fraction.getD []), -((n.fraction.getD []).length : Int)) := by
  rw [valueOf_append] at h ⊢
  have hpow : 1 ≤ 10 ^ (n.fraction.getD []).length := Nat.one_le_pow _ _ (by decide)
  have hwhole : 0 * 10 ^ n.whole.length + valueOf n.whole < Size.limit := by
    nlinarith
  rw [significand, takeDigits_eq hwhole, Nat.zero_mul, Nat.zero_add]
  dsimp only
  rw [takeDigits_eq h]
  simp

end Number

end Dataflow.Json
