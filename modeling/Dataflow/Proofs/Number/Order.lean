import Dataflow.Proofs.Number.Rounding

/-!
# Rounding keeps the order

A larger rational is rounded to no smaller a magnitude, and a larger magnitude stands for no smaller
a number. On one grid this is so because the nearest multiples are in order, with ties going to even
ones; from one grid to a coarser one, because the multiples of a binade begin where those of the one
below it end. Products of magnitudes are in the order of their factors for the same reason.
-/

namespace Dataflow.BinaryFormat

/-! ## Nearest integers -/

/-- A rational is rounded by at most one half, and by one half only to an even integer. -/
theorem roundHalfEven_near (n : Nat) {d : Nat} (hd : 0 < d) :
    (roundHalfEven n d : ℚ) - 1 / 2 ≤ n / d ∧ (n : ℚ) / d ≤ roundHalfEven n d + 1 / 2 ∧
      ((roundHalfEven n d : ℚ) - 1 / 2 = n / d ∨ (n : ℚ) / d = roundHalfEven n d + 1 / 2 →
        roundHalfEven n d % 2 = 0) := by
  have hdq : (0 : ℚ) < d := by exact_mod_cast hd
  have hratio : (n : ℚ) / d = (n / d : Nat) + ((n % d : Nat) : ℚ) / d := by
    have hsplit : (n : ℚ) = d * (n / d : Nat) + (n % d : Nat) := by
      exact_mod_cast (Nat.div_add_mod n d).symm
    rw [div_eq_iff hdq.ne', add_mul, div_mul_cancel₀ _ hdq.ne']
    linarith
  have hnonneg : 0 ≤ ((n % d : Nat) : ℚ) / d := by positivity
  have hone : ((n % d : Nat) : ℚ) / d < 1 := by
    rw [div_lt_one hdq]
    exact_mod_cast Nat.mod_lt n hd
  have hbelow : 2 * (n % d) < d ↔ ((n % d : Nat) : ℚ) / d < 1 / 2 := by
    rw [div_lt_div_iff₀ hdq (by norm_num), one_mul, mul_comm]
    exact_mod_cast Iff.rfl
  have habove : d < 2 * (n % d) ↔ 1 / 2 < ((n % d : Nat) : ℚ) / d := by
    rw [div_lt_div_iff₀ (by norm_num) hdq, one_mul, mul_comm _ (2 : ℚ)]
    exact_mod_cast Iff.rfl
  rw [hratio]
  simp only [roundHalfEven]
  split
  · next h =>
    rw [hbelow] at h
    exact ⟨by linarith, by linarith, by rintro (h | h) <;> linarith⟩
  · next h =>
    rw [hbelow, not_lt] at h
    split
    · next h' =>
      rw [habove] at h'
      push_cast
      exact ⟨by linarith, by linarith, by rintro (h | h) <;> linarith⟩
    · next h' =>
      rw [habove, not_lt] at h'
      have hbit : n / d % 2 = 0 ∨ n / d % 2 = 1 := Nat.mod_two_eq_zero_or_one _
      rcases hbit with hbit | hbit
      · rw [hbit, Nat.add_zero]
        exact ⟨by linarith, by linarith, fun _ => hbit⟩
      · rw [hbit]
        push_cast
        exact ⟨by linarith, by linarith, fun _ => by omega⟩

theorem roundHalfEven_mono {n d n' d' : Nat} (hd : 0 < d) (hd' : 0 < d')
    (h : (n : ℚ) / d ≤ n' / d') : roundHalfEven n d ≤ roundHalfEven n' d' := by
  obtain ⟨hlow, -, heven⟩ := roundHalfEven_near n hd
  obtain ⟨-, hhigh, heven'⟩ := roundHalfEven_near n' hd'
  by_contra hlt
  have hstep : roundHalfEven n' d' + 1 ≤ roundHalfEven n d := by omega
  have hstepq : (roundHalfEven n' d' : ℚ) + 1 ≤ roundHalfEven n d := by exact_mod_cast hstep
  -- both are ties, and between the two even integers there is none that is odd
  have hr := heven (Or.inl (by linarith))
  have hr' := heven' (Or.inr (by linarith))
  have heq : (roundHalfEven n d : ℚ) = roundHalfEven n' d' + 1 := by linarith
  have heq' : roundHalfEven n d = roundHalfEven n' d' + 1 := by exact_mod_cast heq
  omega

variable {fmt : BinaryFormat}

/-! ## Magnitudes -/

def value (fmt : BinaryFormat) (magnitude : Nat) : ℚ :=
  (fmt.decode magnitude).1 * 2 ^ (fmt.decode magnitude).2

/-- The magnitudes with one exponent field. -/
theorem decode_add {rest : Nat} (h : rest < fmt.binade) (field : Nat) :
    fmt.decode (fmt.binade * field + rest) =
      if field = 0 then (rest, fmt.lowest)
      else (rest + fmt.binade, fmt.lowest + (field - 1 : Int)) := by
  rw [decode, Nat.mul_add_div binade_pos, Nat.div_eq_of_lt h, Nat.mul_add_mod,
    Nat.mod_eq_of_lt h, Nat.add_zero]

/-- The next magnitude stands for one step of the grid more. -/
theorem value_succ (magnitude : Nat) :
    fmt.value (magnitude + 1) = fmt.value magnitude + 2 ^ (fmt.decode magnitude).2 := by
  have hmod : magnitude % fmt.binade < fmt.binade := Nat.mod_lt magnitude binade_pos
  rw [← Nat.div_add_mod magnitude fmt.binade]
  generalize magnitude / fmt.binade = field
  generalize magnitude % fmt.binade = rest at hmod
  rcases Nat.lt_or_ge (rest + 1) fmt.binade with hlt | hge
  · rw [Nat.add_assoc, value, value, decode_add hlt, decode_add hmod]
    split
    · push_cast
      ring
    · push_cast
      ring
  · have hlast : rest + 1 = fmt.binade := by omega
    have hnext : fmt.binade * field + rest + 1 = fmt.binade * (field + 1) + 0 := by
      rw [Nat.add_assoc, hlast, Nat.mul_succ, Nat.add_zero]
    rw [hnext, value, value, decode_add binade_pos, decode_add hmod,
      if_neg (Nat.succ_ne_zero field), ← hlast]
    cases field with
    | zero =>
        rw [if_pos rfl]
        push_cast
        ring_nf
    | succ field =>
        rw [if_neg (Nat.succ_ne_zero field)]
        have hstep : (2 : ℚ) ^ (fmt.lowest + ((field + 1 + 1 : Nat) - 1 : Int)) =
            2 * 2 ^ (fmt.lowest + ((field + 1 : Nat) - 1 : Int)) := by
          rw [← zpow_one_add₀ (by norm_num)]
          congr 1
          push_cast
          ring
        rw [hstep]
        push_cast
        ring

/-- The numbers of a binade end where those of the next one begin. -/
theorem value_le (magnitude : Nat) :
    fmt.value magnitude ≤ fmt.binade * 2 ^ (fmt.lowest + (magnitude / fmt.binade : Nat)) := by
  have hrest : magnitude % fmt.binade < fmt.binade := Nat.mod_lt _ binade_pos
  simp only [value, decode]
  split
  · next hfield =>
    rw [hfield, Nat.cast_zero, add_zero]
    exact mul_le_mul_of_nonneg_right (by exact_mod_cast hrest.le) (by positivity)
  · have hstep : (2 : ℚ) ^ (fmt.lowest + (magnitude / fmt.binade : Nat)) =
        2 * 2 ^ (fmt.lowest + ((magnitude / fmt.binade : Nat) - 1 : Int)) := by
      rw [← zpow_one_add₀ (by norm_num)]
      congr 1
      ring
    have hdouble : ((magnitude % fmt.binade + fmt.binade : Nat) : ℚ) ≤ fmt.binade * 2 := by
      exact_mod_cast (by omega : magnitude % fmt.binade + fmt.binade ≤ fmt.binade * 2)
    rw [hstep, ← mul_assoc]
    exact mul_le_mul_of_nonneg_right hdouble (by positivity)

theorem le_value {magnitude : Nat} (h : 0 < magnitude / fmt.binade) :
    fmt.binade * 2 ^ (fmt.lowest + ((magnitude / fmt.binade : Nat) - 1 : Int)) ≤
      fmt.value magnitude := by
  simp only [value, decode, if_neg (Nat.pos_iff_ne_zero.1 h)]
  exact mul_le_mul_of_nonneg_right (by exact_mod_cast Nat.le_add_left _ _) (by positivity)

theorem value_mono {a b : Nat} (h : a ≤ b) : fmt.value a ≤ fmt.value b := by
  have hfield : a / fmt.binade ≤ b / fmt.binade := Nat.div_le_div_right h
  rcases eq_or_lt_of_le hfield with heq | hlt
  · have ha := Nat.div_add_mod a fmt.binade
    have hb := Nat.div_add_mod b fmt.binade
    have hrest : a % fmt.binade ≤ b % fmt.binade := by
      rw [heq] at ha
      omega
    simp only [value, decode, heq]
    split
    · exact mul_le_mul_of_nonneg_right (by exact_mod_cast hrest) (by positivity)
    · refine mul_le_mul_of_nonneg_right ?_ (by positivity)
      exact_mod_cast Nat.add_le_add_right hrest _
  · refine (value_le a).trans (le_trans ?_ (le_value (Nat.zero_lt_of_lt hlt)))
    refine mul_le_mul_of_nonneg_left (zpow_le_zpow_right₀ (by norm_num) ?_) (by positivity)
    omega

theorem floorLog2_mono {n d n' d' : Nat} (hn : 0 < n) (hd : 0 < d) (hn' : 0 < n') (hd' : 0 < d')
    (h : (n : ℚ) / d ≤ n' / d') : floorLog2 n d ≤ floorLog2 n' d' := by
  have hpow : (2 : ℚ) ^ floorLog2 n d < 2 ^ (floorLog2 n' d' + 1) :=
    ((floorLog2_spec hn hd).1.trans h).trans_lt (floorLog2_spec hn' hd').2
  have hlt := (zpow_lt_zpow_iff_right₀ (by norm_num)).1 hpow
  omega

theorem binade_le_roundHalfEven (fmt : BinaryFormat) {n d : Nat} (hn : 0 < n) (hd : 0 < d) :
    fmt.binade ≤ roundHalfEven (scale n d (floorLog2 n d - (fmt.precision - 1 : Nat))).1
      (scale n d (floorLog2 n d - (fmt.precision - 1 : Nat))).2 := by
  obtain ⟨hscale, hratio⟩ :=
    scale_spec n hd (floorLog2 n d - (fmt.precision - 1 : Nat))
  have hstart : ((fmt.binade : Nat) : ℚ) / (1 : Nat) ≤ n / d /
      2 ^ (floorLog2 n d - (fmt.precision - 1 : Nat)) := by
    rw [Nat.cast_one, div_one, le_div_iff₀ (by positivity)]
    have hbinade : ((fmt.binade : Nat) : ℚ) = 2 ^ ((fmt.precision - 1 : Nat) : Int) := by
      rw [zpow_natCast]
      exact_mod_cast rfl
    rw [hbinade, ← zpow_add₀ (by norm_num), add_sub_cancel]
    exact (floorLog2_spec hn hd).1
  rw [← hratio] at hstart
  have hround := roundHalfEven_mono Nat.one_pos hscale hstart
  simpa [roundHalfEven, Nat.mod_one] using hround

theorem round_mono (hprecision : 1 ≤ fmt.precision) {n d n' d' : Nat} (hd : 0 < d) (hd' : 0 < d')
    (h : (n : ℚ) / d ≤ n' / d') : fmt.round n d ≤ fmt.round n' d' := by
  rcases Nat.eq_zero_or_pos n with rfl | hn
  · simp [round]
  have hn' : 0 < n' := by
    rcases Nat.eq_zero_or_pos n' with rfl | hn'
    · have hpos : (0 : ℚ) < n / d := by positivity
      rw [Nat.cast_zero, zero_div] at h
      linarith
    · exact hn'
  have hlog := floorLog2_mono hn hd hn' hd' h
  simp only [round, if_neg (Nat.pos_iff_ne_zero.1 hn), if_neg (Nat.pos_iff_ne_zero.1 hn')]
  have hstart := binade_le_roundHalfEven fmt hn' hd'
  generalize hq : max fmt.lowest (floorLog2 n d - (fmt.precision - 1 : Nat)) = q
  generalize hq' : max fmt.lowest (floorLog2 n' d' - (fmt.precision - 1 : Nat)) = q'
  refine min_le_min_left _ ?_
  have hle : q ≤ q' := by omega
  rcases eq_or_lt_of_le hle with rfl | hlt
  · obtain ⟨hscale, hratio⟩ := scale_spec n hd q
    obtain ⟨hscale', hratio'⟩ := scale_spec n' hd' q
    refine Nat.add_le_add_left (roundHalfEven_mono hscale hscale' ?_) _
    rw [hratio, hratio']
    exact div_le_div_of_nonneg_right h (by positivity)
  · have hround := roundHalfEven_scale_lt (q := q) hprecision hn hd (by omega)
    have hfine : q' = floorLog2 n' d' - (fmt.precision - 1 : Nat) := by omega
    rw [← hfine] at hstart
    have hcount : (q - fmt.lowest).toNat + 1 ≤ (q' - fmt.lowest).toNat := by omega
    calc (q - fmt.lowest).toNat * fmt.binade + roundHalfEven (scale n d q).1 (scale n d q).2
        ≤ (q - fmt.lowest).toNat * fmt.binade + 2 * fmt.binade := by omega
      _ = ((q - fmt.lowest).toNat + 1) * fmt.binade + fmt.binade := by ring
      _ ≤ (q' - fmt.lowest).toNat * fmt.binade +
            roundHalfEven (scale n' d' q').1 (scale n' d' q').2 :=
          Nat.add_le_add (Nat.mul_le_mul_right _ hcount) hstart

theorem mul_eq_round (fmt : BinaryFormat) (a b : Nat) : ∃ x y, 0 < y ∧ fmt.mul a b = fmt.round x y ∧
    (x : ℚ) / y = fmt.value a * fmt.value b := by
  obtain ⟨hpos, hratio⟩ := scale_spec ((fmt.decode a).1 * (fmt.decode b).1) Nat.one_pos
    (-((fmt.decode a).2 + (fmt.decode b).2))
  refine ⟨(scale ((fmt.decode a).1 * (fmt.decode b).1) 1
    (-((fmt.decode a).2 + (fmt.decode b).2))).1, _, hpos, rfl, ?_⟩
  rw [hratio, value, value, Nat.cast_one, div_one, zpow_neg, div_inv_eq_mul,
    zpow_add₀ (by norm_num)]
  push_cast
  ring

theorem mul_mono (hprecision : 1 ≤ fmt.precision) {a b a' b' : Nat} (ha : a ≤ a') (hb : b ≤ b') :
    fmt.mul a b ≤ fmt.mul a' b' := by
  obtain ⟨x, y, hy, he, hratio⟩ := mul_eq_round fmt a b
  obtain ⟨x', y', hy', he', hratio'⟩ := mul_eq_round fmt a' b'
  rw [he, he']
  refine round_mono hprecision hy hy' ?_
  rw [hratio, hratio']
  exact mul_le_mul (value_mono ha) (value_mono hb) (by rw [value]; positivity)
    (by rw [value]; positivity)

end Dataflow.BinaryFormat
