import Dataflow.Proofs.Json.Numerals

/-!
# Floating point numbers as literals

Wherever the point is put, the text of a decimal is a proper literal that stands for this decimal.
So a floating point number is written as one that can be read exactly when it is finite: the
shortest decimal of a finite one has few digits and is no larger than the largest double.
-/

namespace Dataflow.Json

namespace Number

theorem valueOf_zeros (k : Nat) : valueOf (List.replicate k '0') = 0 := by
  rw [valueOf, ← Nat.ofDigitChars_eq_foldl, Nat.ofDigitChars_replicate_zero, Nat.mul_zero]

theorem valueOf_lt {ds : List Char} (h : Digits ds) : valueOf ds < 10 ^ ds.length := by
  induction ds with
  | nil => exact Nat.one_pos
  | cons c ds ih =>
      rw [Digits, List.forall_mem_cons] at h
      have hc : c.toNat ≤ '9'.toNat := by
        have hdigit := h.1
        rw [Char.isDigit, Bool.and_eq_true, decide_eq_true_iff, decide_eq_true_iff] at hdigit
        exact hdigit.2
      have hnine : '9'.toNat = '0'.toNat + 9 := rfl
      have hhead : valueOf [c] ≤ 9 := by
        simp only [valueOf, List.foldl_cons, List.foldl_nil]
        omega
      have hds := ih h.2
      rw [← List.singleton_append, valueOf_append, List.singleton_append, List.length_cons,
        Nat.pow_succ]
      nlinarith

theorem digits_zeros (k : Nat) : Digits (List.replicate k '0') := by
  intro c hc
  rw [List.eq_of_mem_replicate hc]
  rfl

theorem Digits.append {ds es : List Char} (hd : Digits ds) (he : Digits es) : Digits (ds ++ es) :=
  fun c hc => (List.mem_append.1 hc).elim (hd c) (he c)

theorem ne_nil_of_properWhole {ds : List Char} (h : properWhole ds = true) : ds ≠ [] := by
  rintro rfl
  cases h

theorem head?_of_properWhole {ds : List Char} (h : properWhole ds = true) (hz : ds ≠ ['0']) :
    ds ≠ [] ∧ ds.head? ≠ some '0' := by
  match ds with
  | [] => cases h
  | c :: ds =>
      refine ⟨List.cons_ne_nil _ _, fun hc => ?_⟩
      cases hc
      rw [properWhole.eq_def] at h
      split at h
      · cases h
      · next he => exact hz he
      · next he =>
        cases he
        exact of_decide_eq_true h rfl

theorem properWhole_singleton (c : Char) : properWhole [c] = true := by
  by_cases hc : c = '0'
  · rw [hc]
    rfl
  · exact properWhole_of_head? (List.cons_ne_nil _ _) (mt Option.some_inj.1 hc)

/-- Some number has the literal `cs`, with either sign in front, and is read by scaling at most
seventeen digits to the value `v`. -/
def Stands (cs : List Char) (v : ℚ) : Prop :=
  ∀ negative, ∃ n : Number, n.Proper ∧ n.literal = signText negative ++ cs ∧ n.word? = none ∧
    ∃ m e, n.magnitude? = scaleByPower (BinaryFormat.double.round m 1) e ∧ m ≤ 10 ^ 17 ∧
      (m : ℚ) * 10 ^ e = v

theorem seventeen_digits_lt : 10 ^ 17 < Size.limit := by decide

theorem stands_point (whole fraction : List Char) (hd : Digits whole)
    (hw : properWhole whole = true) (hf : Digits fraction) (hne : fraction ≠ [])
    (hm : valueOf (whole ++ fraction) ≤ 10 ^ 17) :
    Stands (whole ++ '.' :: fraction)
      (valueOf (whole ++ fraction) * 10 ^ (-(fraction.length : Int))) := by
  intro negative
  have hword : word? ⟨negative, whole, some fraction, none⟩ = none := if_pos (Or.inl rfl)
  have hparts : significand ⟨negative, whole, some fraction, none⟩ =
      (valueOf (whole ++ fraction), -(fraction.length : Int)) :=
    significand_eq (hm.trans_lt seventeen_digits_lt)
  refine ⟨⟨negative, whole, some fraction, none⟩, ⟨hd, hw, ?_, fun _ h => by cases h⟩, ?_, hword,
    _, _, ?_, hm, rfl⟩
  · rintro _ ⟨⟩
    exact ⟨hne, hf⟩
  · simp [literal, fractionText, exponentText]
  · rw [magnitude?, hword]
    dsimp only
    rw [hparts]

theorem magnitude?_of_exponent {n : Number} {m : Nat} {shift e : Int} (hword : n.word? = none)
    (hparts : n.significand = (m, -shift))
    (hexponent : n.exponent = some (decide (e < 0), Nat.toDigits 10 e.natAbs))
    (hshift : 0 ≤ shift) (he : shift + e.natAbs ≤ exponentLimit) :
    n.magnitude? = scaleByPower (BinaryFormat.double.round m 1) (e - shift) := by
  rw [magnitude?, hword]
  dsimp only
  rw [hparts, hexponent]
  dsimp only
  rw [valueOf_toDigits, if_neg (by omega)]
  by_cases hneg : e < 0
  · rw [if_pos (decide_eq_true hneg)]
    congr 1
    omega
  · rw [if_neg (by simpa using hneg)]
    congr 1
    omega

theorem stands_exponent {c : Char} {ds : List Char} (hd : Digits (c :: ds)) (e : Int)
    (hm : valueOf (c :: ds) ≤ 10 ^ 17) (he : ds.length + e.natAbs ≤ exponentLimit) :
    Stands (c :: (if ds = [] then [] else '.' :: ds) ++
        'e' :: (if e < 0 then '-' else '+') :: Nat.toDigits 10 e.natAbs)
      (valueOf (c :: ds) * 10 ^ (e - ds.length)) := by
  intro negative
  rw [Digits, List.forall_mem_cons] at hd
  have hfraction : (if ds = [] then none else some ds).getD [] = ds := by
    split
    · next h => rw [h]; rfl
    · rfl
  generalize hn : (⟨negative, [c], if ds = [] then none else some ds,
    some (decide (e < 0), Nat.toDigits 10 e.natAbs)⟩ : Number) = n
  have hword : n.word? = none := by
    rw [← hn]
    exact if_pos (Or.inr rfl)
  have hparts : n.significand = (valueOf (c :: ds), -(ds.length : Int)) := by
    have hfits := significand_eq (n := n)
    rw [← hn] at hfits ⊢
    dsimp only at hfits
    rw [hfraction, List.singleton_append] at hfits
    exact hfits (hm.trans_lt seventeen_digits_lt)
  refine ⟨n, ?_, ?_, hword, valueOf (c :: ds), e - ds.length, ?_, hm, rfl⟩
  · rw [← hn]
    refine ⟨fun d hc => List.mem_singleton.1 hc ▸ hd.1, properWhole_singleton c, ?_, ?_⟩
    · intro es hes
      dsimp only at hes
      split at hes
      · cases hes
      · next hne =>
        cases hes
        exact ⟨hne, hd.2⟩
    · rintro _ ⟨⟩
      exact ⟨Nat.toDigits_ne_nil, digits_toDigits _⟩
  · rw [← hn]
    split <;> simp [literal, fractionText, exponentText]
  · have hexponent : n.exponent = some (decide (e < 0), Nat.toDigits 10 e.natAbs) := by rw [← hn]
    exact magnitude?_of_exponent hword hparts hexponent (Int.natCast_nonneg _) (by omega)

theorem Stands.of_eq {cs : List Char} {v w : ℚ} (h : Stands cs v) (hvw : v = w) : Stands cs w :=
  hvw ▸ h

section

variable {ds : List Char} {e : Int} (hd : Digits ds) (hw : properWhole ds = true)
  (hm : valueOf ds ≤ 10 ^ 17)

include hd hw hm

theorem stands_behindPoint (he : e < 0) :
    Stands ('0' :: '.' :: List.replicate (-e - 1).toNat '0' ++ ds)
      (valueOf ds * 10 ^ (e + 1 - ds.length)) := by
  have hzero : Digits ['0'] := digits_zeros 1
  have hfraction : Digits (List.replicate (-e - 1).toNat '0' ++ ds) := (digits_zeros _).append hd
  have hne : List.replicate (-e - 1).toNat '0' ++ ds ≠ [] :=
    List.append_ne_nil_of_right_ne_nil _ (ne_nil_of_properWhole hw)
  have hvalue : valueOf (['0'] ++ (List.replicate (-e - 1).toNat '0' ++ ds)) = valueOf ds := by
    rw [valueOf_append, valueOf_append, valueOf_zeros]
    simp [valueOf]
  refine (stands_point ['0'] _ hzero rfl hfraction hne (hvalue ▸ hm)).of_eq ?_
  rw [hvalue]
  simp only [List.length_append, List.length_replicate]
  have hexp : -(((-e - 1).toNat + ds.length : Nat) : Int) = e + 1 - ds.length := by omega
  rw [hexp]

omit hm in
theorem stands_beforePoint (hz : ds = ['0'] → e = 0) (he : 0 ≤ e) (hhigh : e ≤ 15)
    (hlen : ds.length ≤ e.toNat + 1) :
    Stands (ds ++ List.replicate (e.toNat + 1 - ds.length) '0' ++ ['.', '0'])
      (valueOf ds * 10 ^ (e + 1 - ds.length)) := by
  have hlead : properWhole (ds ++ List.replicate (e.toNat + 1 - ds.length) '0') = true := by
    by_cases hds : ds = ['0']
    · subst hds
      rw [hz rfl]
      rfl
    · obtain ⟨hne, hhead⟩ := head?_of_properWhole hw hds
      refine properWhole_of_head? (List.append_ne_nil_of_left_ne_nil hne _) ?_
      rwa [List.head?_append_of_ne_nil ds hne]
  have hfew : valueOf (ds ++ List.replicate (e.toNat + 1 - ds.length) '0' ++
      List.replicate 1 '0') ≤ 10 ^ 17 := by
    refine (valueOf_lt ((hd.append (digits_zeros _)).append (digits_zeros 1))).le.trans ?_
    refine Nat.pow_le_pow_right (by decide) ?_
    simp only [List.length_append, List.length_replicate]
    omega
  have hpoint := stands_point _ _ (hd.append (digits_zeros _)) hlead (digits_zeros 1)
    (List.cons_ne_nil _ _) hfew
  have hexp : e + 1 - ds.length = ((e.toNat + 1 - ds.length : Nat) : Int) := by omega
  have hzero : valueOf ['0'] = 0 := rfl
  refine hpoint.of_eq ?_
  rw [valueOf_append, valueOf_append, valueOf_zeros, List.replicate_one, hzero, hexp]
  simp

theorem stands_aroundPoint (he : 0 ≤ e) (hlen : e.toNat + 1 < ds.length) :
    Stands (ds.take (e.toNat + 1) ++ '.' :: ds.drop (e.toNat + 1))
      (valueOf ds * 10 ^ (e + 1 - ds.length)) := by
  have hds : ds ≠ ['0'] := by
    rintro rfl
    exact absurd hlen (by simp)
  obtain ⟨hne, hhead⟩ := head?_of_properWhole hw hds
  have hwhole : properWhole (ds.take (e.toNat + 1)) = true := by
    refine properWhole_of_head? (by simp [hne]) ?_
    rwa [List.head?_take, if_neg (Nat.succ_ne_zero _)]
  have hrest : ds.drop (e.toNat + 1) ≠ [] := by
    rw [Ne, List.drop_eq_nil_iff, Nat.not_le]
    exact hlen
  refine (stands_point _ _ (fun c hc => hd c (List.mem_of_mem_take hc)) hwhole
    (fun c hc => hd c (List.mem_of_mem_drop hc)) hrest
    ((List.take_append_drop _ ds).symm ▸ hm)).of_eq ?_
  rw [List.take_append_drop, List.length_drop]
  congr 2
  omega

/-- Wherever the point is put, the text stands for the digits at their place. -/
theorem stands_layOut (style : DecimalStyle) (hstyle : style.highest ≤ 15)
    (hz : ds = ['0'] → e = 0) (hlimit : ds.length + e.natAbs ≤ exponentLimit) :
    Stands (style.layOut ds e) (valueOf ds * 10 ^ (e + 1 - ds.length)) := by
  rw [DecimalStyle.layOut.eq_def]
  split
  · next hrange =>
    split
    · next he => exact stands_behindPoint hd hw hm he
    · next he =>
      dsimp only
      split
      · next hlen =>
        exact stands_beforePoint hd hw hz (Int.not_lt.1 he) (hrange.2.trans hstyle) hlen
      · next hlen => exact stands_aroundPoint hd hw hm (Int.not_lt.1 he) (Nat.not_le.1 hlen)
  · obtain ⟨c, ds, rfl⟩ := List.exists_cons_of_ne_nil (ne_nil_of_properWhole hw)
    have hexp : e + 1 - ((c :: ds).length : Int) = e - ds.length := by
      rw [List.length_cons]
      omega
    rw [hexp]
    rw [List.length_cons] at hlimit
    cases ds with
    | nil => exact stands_exponent hd e hm (by omega)
    | cons d ds => exact stands_exponent hd e hm (by omega)

end

end Number

end Dataflow.Json

namespace Dataflow

open Json

namespace Decimal

theorem value_bounds {d : Decimal} (h : d.digits ≠ 0) :
    (10 : ℚ) ^ (d.exponent + (Nat.toDigits 10 d.digits).length - 1) ≤ d.value ∧
      d.value < 10 ^ (d.exponent + (Nat.toDigits 10 d.digits).length) := by
  obtain ⟨k, hk⟩ : ∃ k, (Nat.toDigits 10 d.digits).length = k + 1 :=
    Nat.exists_eq_succ_of_ne_zero (Nat.pos_iff_ne_zero.1 Nat.length_toDigits_pos)
  have hhigh : d.digits < 10 ^ (k + 1) :=
    (Nat.length_toDigits_le_iff (b := 10) (by decide) k.succ_pos).1 hk.le
  have hlow : 10 ^ k ≤ d.digits := by
    rcases Nat.eq_zero_or_pos k with rfl | hpos
    · exact Nat.one_le_iff_ne_zero.2 h
    · refine Nat.le_of_not_lt fun hlt => ?_
      have hlength := (Nat.length_toDigits_le_iff (b := 10) (by decide) hpos).2 hlt
      omega
  have hscale : (0 : ℚ) < 10 ^ d.exponent := by positivity
  have hexp : d.exponent + (k + 1 : Nat) - 1 = (k : Int) + d.exponent := by
    push_cast
    ring
  have hexp' : d.exponent + (k + 1 : Nat) = ((k + 1 : Nat) : Int) + d.exponent := by ring
  rw [hk, hexp, hexp', zpow_add₀ (by norm_num), zpow_add₀ (by norm_num), value, zpow_natCast,
    zpow_natCast]
  exact ⟨mul_le_mul_of_nonneg_right (by exact_mod_cast hlow) hscale.le,
    mul_lt_mul_of_pos_right (by exact_mod_cast hhigh) hscale⟩

/-- The first digit of a decimal in the range of the doubles stands for a power of ten that an
exponent can spell. -/
theorem exponent_bounds {d : Decimal} (h : d.digits ≠ 0) (hlow : (2 : ℚ) ^ (-1075 : Int) ≤ d.value)
    (hhigh : d.value ≤ largest) :
    (d.exponent + (Nat.toDigits 10 d.digits).length - 1).natAbs ≤ 1075 := by
  obtain ⟨hbelow, habove⟩ := value_bounds h
  have hmax : (10 : ℚ) ^ (d.exponent + (Nat.toDigits 10 d.digits).length - 1) <
      10 ^ ((tableLimit + 1 : Nat) : Int) := by
    refine (hbelow.trans hhigh).trans_lt ?_
    rw [zpow_natCast]
    exact_mod_cast largest_lt
  have hmin : (10 : ℚ) ^ (-1075 : Int) <
      10 ^ (d.exponent + (Nat.toDigits 10 d.digits).length) := by
    refine (le_trans ?_ hlow).trans_lt habove
    rw [zpow_neg, zpow_neg]
    exact inv_anti₀ (by positivity) (zpow_le_zpow_left₀ (by norm_num) (by norm_num) (by norm_num))
  rw [zpow_lt_zpow_iff_right₀ (by norm_num)] at hmax hmin
  rw [tableLimit] at hmax
  omega

end Decimal

namespace BinaryFormat

theorem overflow_single_lt : single.overflow < largest := by
  have hexponent : single.lowest + single.exponents - 2 = 104 := by decide
  have hle : 2 ^ 128 ≤ largest := by decide +kernel
  rw [overflow, hexponent]
  calc ((2 : ℚ) ^ 24 - 1 / 2) * 2 ^ (104 : Int) < 2 ^ 128 := by norm_num
    _ ≤ (largest : ℚ) := by exact_mod_cast hle

theorem shortest_last_double :
    double.shortest (double.infinity - 1) = ⟨17976931348623157, 292⟩ := by
  decide +kernel

theorem value_shortest_double_le {magnitude : Nat} (h : magnitude < double.infinity) :
    (double.shortest magnitude).value ≤ largest := by
  by_cases hlast : magnitude = double.infinity - 1
  · have hexponent : (292 : Int) = ((tableLimit - 16 : Nat) : Int) := rfl
    have hle : 17976931348623157 * 10 ^ (tableLimit - 16) ≤ largest := by decide +kernel
    rw [hlast, shortest_last_double, Decimal.value]
    dsimp only
    rw [hexponent]
    generalize tableLimit - 16 = k at hle ⊢
    rw [zpow_natCast]
    exact_mod_cast hle
  · rcases shortest_spec double magnitude with hzero | hholds
    · rw [hzero, Decimal.value, Nat.cast_zero, zero_mul]
      exact Nat.cast_nonneg _
    · refine hholds.le_value_succ.trans ?_
      rw [← value_last_double]
      exact value_mono (by omega)

theorem value_shortest_single_le {magnitude : Nat} (hpos : 0 < magnitude)
    (h : magnitude < single.infinity) : (single.shortest magnitude).value ≤ largest := by
  rcases shortest_spec single magnitude with hzero | hholds
  · rw [hzero, Decimal.value, Nat.cast_zero, zero_mul]
    exact Nat.cast_nonneg _
  · exact ((hholds.bounds (by decide) (by decide) hpos h).2.trans overflow_single_lt).le

end BinaryFormat

/-! ## Texts of numbers -/

namespace Json

section

variable {style : DecimalStyle} {fmt : BinaryFormat} {magnitude : Nat}

theorem shortest_cases (hprecision : 1 ≤ fmt.precision) (hexponents : 2 ≤ fmt.exponents)
    (hlowest : -1074 ≤ fmt.lowest) (h : magnitude < fmt.infinity) (hpos : 0 < magnitude) :
    fmt.shortest magnitude = ⟨0, 0⟩ ∨ (fmt.shortest magnitude).digits ≠ 0 ∧
      (2 : ℚ) ^ (-1075 : Int) ≤ (fmt.shortest magnitude).value := by
  refine (BinaryFormat.shortest_spec fmt magnitude).imp_right fun hholds => ?_
  have hbound := (hholds.bounds hprecision hexponents hpos h).1
  refine ⟨fun hzero => ?_, le_trans ?_ hbound⟩
  · rw [Decimal.value, hzero, Nat.cast_zero, zero_mul] at hbound
    exact absurd hbound (not_le.2 (by positivity))
  · exact zpow_le_zpow_right₀ (by norm_num) (by omega)

theorem exists_stands_render (hstyle : style.highest ≤ 15) (hprecision : 1 ≤ fmt.precision)
    (hexponents : 2 ≤ fmt.exponents) (hlowest : -1074 ≤ fmt.lowest) (h : magnitude < fmt.infinity)
    (hlargest : 0 < magnitude → (fmt.shortest magnitude).value ≤ largest) (negative : Bool) :
    ∃ cs v, style.render fmt negative magnitude = Number.signText negative ++ cs ∧
      Number.Stands cs v ∧ v ≤ largest := by
  rw [DecimalStyle.render]
  split
  · refine ⟨_, _, rfl, Number.stands_point ['0'] _ (Number.digits_zeros 1) rfl
      (Number.digits_zeros 1) (by simp) (by decide), ?_⟩
    have hzero : Number.valueOf (['0'] ++ ['0']) = 0 := rfl
    rw [hzero, Nat.cast_zero, zero_mul]
    exact Nat.cast_nonneg _
  · next hmagnitude =>
    have hpos := Nat.pos_iff_ne_zero.2 hmagnitude
    have hdigits := BinaryFormat.digits_shortest_le fmt hpos
    have hcases := shortest_cases hprecision hexponents hlowest h hpos
    have hvalue := hlargest hpos
    generalize fmt.shortest magnitude = d at hdigits hcases hvalue
    have hlength : (Nat.toDigits 10 d.digits).length ≤ 18 :=
      (Nat.length_toDigits_le_iff (b := 10) (by decide) (by decide)).2
        (hdigits.trans_lt (by decide))
    refine ⟨_, _, rfl, Number.stands_layOut (Number.digits_toDigits _)
      (Number.properWhole_toDigits _) ?_ style hstyle ?_ ?_, ?_⟩
    · rwa [Number.valueOf_toDigits]
    · intro hzero
      rcases hcases with rfl | ⟨hne, -⟩
      · rfl
      · refine absurd ?_ hne
        rw [← Number.valueOf_toDigits d.digits, hzero]
        rfl
    · rcases hcases with rfl | ⟨hne, hmin⟩
      · decide
      · have hexponent := Decimal.exponent_bounds hne hmin hvalue
        rw [exponentLimit]
        omega
    · rw [Number.valueOf_toDigits, Int.sub_add_cancel, Int.add_sub_cancel]
      exact hvalue

/-- The text of a finite number spells a value, whose literal can be read. -/
theorem spelled_render (hstyle : style.highest ≤ 15) (hprecision : 1 ≤ fmt.precision)
    (hexponents : 2 ≤ fmt.exponents) (hlowest : -1074 ≤ fmt.lowest) (h : magnitude < fmt.infinity)
    (hlargest : 0 < magnitude → (fmt.shortest magnitude).value ≤ largest) (negative : Bool) :
    (num (String.ofList (style.render fmt negative magnitude))).Spelled ∧
      ∃ n, (num (String.ofList (style.render fmt negative magnitude))).asNumber? = some n ∧
        n.word? = none ∧ n.magnitude?.isSome = true := by
  obtain ⟨cs, v, hrender, hstands, hv⟩ :=
    exists_stands_render hstyle hprecision hexponents hlowest h hlargest negative
  obtain ⟨n, hproper, hliteral, hword, m, e, hread, hm, rfl⟩ := hstands negative
  have hn : Number.ofLiteral? (style.render fmt negative magnitude) = some n := by
    rw [hrender, ← hliteral, Number.ofLiteral?_literal hproper]
  rw [← String.toList_ofList (l := style.render fmt negative magnitude)] at hn
  refine ⟨.num hn, n, hn, hword, ?_⟩
  rw [hread]
  exact isSome_scaleByPower hm hv

end

end Json

theorem Double.spelled_render (x : Double) (h : x.isFinite = true) :
    (Json.num (String.ofList (DecimalStyle.double.render .double x.negative x.magnitude))).Spelled ∧
      ∃ n, (Json.num (String.ofList
          (DecimalStyle.double.render .double x.negative x.magnitude))).asNumber? = some n ∧
        n.word? = none ∧ n.magnitude?.isSome = true :=
  Json.spelled_render (by decide) (by decide) (by decide) (by decide) (of_decide_eq_true h)
    (fun _ => BinaryFormat.value_shortest_double_le (of_decide_eq_true h)) x.negative

theorem Single.spelled_render (x : Single) (h : x.isFinite = true) :
    (Json.num (String.ofList (DecimalStyle.single.render .single x.negative x.magnitude))).Spelled ∧
      ∃ n, (Json.num (String.ofList
          (DecimalStyle.single.render .single x.negative x.magnitude))).asNumber? = some n ∧
        n.word? = none ∧ n.magnitude?.isSome = true :=
  Json.spelled_render (by decide) (by decide) (by decide) (by decide) (of_decide_eq_true h)
    (fun hpos => BinaryFormat.value_shortest_single_le hpos (of_decide_eq_true h)) x.negative

/-- A double is written as a literal exactly when it is finite, and then this can be read. -/
theorem Double.isSome_asDouble?_toJson (x : Double) :
    x.toJson.asDouble?.isSome = true ↔ x.isFinite = true := by
  rw [toJson]
  split
  · next h =>
    refine iff_of_true ?_ h
    obtain ⟨-, n, hn, -, hread⟩ := x.spelled_render h
    rw [Json.asDouble?, hn]
    simpa [Json.Number.toDouble?] using hread
  · next h => exact iff_of_false Bool.false_ne_true h

theorem Double.spelled_toJson (x : Double) : x.toJson.Spelled := by
  rw [toJson]
  split
  · next h => exact (x.spelled_render h).1
  · exact .null

/-- A single precision number is written as a literal exactly when it is finite, and then this can
be read. -/
theorem Single.isSome_asSingle?_toJson (x : Single) :
    x.toJson.asSingle?.isSome = true ↔ x.isFinite = true := by
  rw [toJson]
  split
  · next h =>
    refine iff_of_true ?_ h
    obtain ⟨-, n, hn, hword, hread⟩ := x.spelled_render h
    rw [Json.asSingle?, hn]
    simpa [Json.Number.toSingle?, Json.Number.toDouble?, hword] using hread
  · next h => exact iff_of_false Bool.false_ne_true h

theorem Single.spelled_toJson (x : Single) : x.toJson.Spelled := by
  rw [toJson]
  split
  · next h => exact (x.spelled_render h).1
  · exact .null

end Dataflow
