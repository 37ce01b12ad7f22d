import Dataflow.Json.Numeral
import Dataflow.Proofs.Json.Lexing
import Dataflow.Proofs.Storage.Storable

/-!
# Number literals

A number is read back from its literal: the sign, the whole part, the fraction and the exponent
each end where the next begins. The digits of an integer are such a literal, which spells the
integer again.
-/

namespace Dataflow.Json

namespace Number

def Digits (ds : List Char) : Prop := ∀ c ∈ ds, c.isDigit = true

structure Proper (n : Number) : Prop where
  whole : Digits n.whole
  leading : properWhole n.whole = true
  fraction : ∀ ds ∈ n.fraction, ds ≠ [] ∧ Digits ds
  exponent : ∀ e ∈ n.exponent, e.2 ≠ [] ∧ Digits e.2

def signText (negative : Bool) : List Char := if negative then ['-'] else []

def fractionText : Option (List Char) → List Char
  | none => []
  | some ds => '.' :: ds

def exponentText : Option (Bool × List Char) → List Char
  | none => []
  | some (negative, ds) => 'e' :: (if negative then '-' else '+') :: ds

def literal (n : Number) : List Char :=
  signText n.negative ++ (n.whole ++ (fractionText n.fraction ++ exponentText n.exponent))

theorem digits_append {ds rest : List Char} (h : Digits ds)
    (hrest : ∀ c ∈ rest.head?, c.isDigit = false) : digits (ds ++ rest) = (ds, rest) := by
  rw [digits_eq, List.takeWhile_append_of_pos h, List.dropWhile_append_of_pos h]
  cases rest with
  | nil => rw [List.takeWhile_nil, List.dropWhile_nil, List.append_nil]
  | cons c rest =>
      have hc : ¬c.isDigit = true := by rw [hrest c rfl]; exact Bool.false_ne_true
      rw [List.takeWhile_cons_of_neg hc, List.dropWhile_cons_of_neg hc, List.append_nil]

theorem exponentOf?_exponentText {e : Option (Bool × List Char)}
    (h : ∀ p ∈ e, p.2 ≠ [] ∧ Digits p.2) : exponentOf? (exponentText e) = some e := by
  match e with
  | none => rfl
  | some (negative, ds) =>
      obtain ⟨hne, hds⟩ := h _ rfl
      have hall : ds.all Char.isDigit = true := List.all_eq_true.2 hds
      cases negative <;> simp [exponentText, exponentOf?, hne, hall]

theorem head?_exponentText (e : Option (Bool × List Char)) :
    ∀ c ∈ (exponentText e).head?, c.isDigit = false := by
  intro c hc
  cases e with
  | none => cases hc
  | some e =>
      cases hc
      rfl

theorem fractionOf?_fractionText {f : Option (List Char)} (h : ∀ ds ∈ f, ds ≠ [] ∧ Digits ds)
    (e : Option (Bool × List Char)) :
    fractionOf? (fractionText f ++ exponentText e) = some (f, exponentText e) := by
  match f, e with
  | none, none | none, some _ => rfl
  | some ds, e =>
      obtain ⟨hne, hds⟩ := h _ rfl
      simp [fractionText, fractionOf?, digits_append hds (head?_exponentText e), hne]

theorem head?_fractionText (f : Option (List Char)) (e : Option (Bool × List Char)) :
    ∀ c ∈ (fractionText f ++ exponentText e).head?, c.isDigit = false := by
  cases f with
  | none => exact head?_exponentText e
  | some ds =>
      intro c hc
      cases hc
      rfl

theorem head?_append_ne_minus {ds rest : List Char} (hd : Digits ds)
    (hw : properWhole ds = true) : (ds ++ rest).head? ≠ some '-' := by
  cases ds with
  | nil => cases hw
  | cons c ds =>
      intro h
      have hc : c.isDigit = true := hd c List.mem_cons_self
      rw [Option.some.inj h] at hc
      cases hc

/-- A number is read back from its literal. -/
theorem ofLiteral?_literal {n : Number} (h : n.Proper) : ofLiteral? n.literal = some n := by
  have hdigits : digits (n.whole ++ (fractionText n.fraction ++ exponentText n.exponent)) =
      (n.whole, fractionText n.fraction ++ exponentText n.exponent) :=
    digits_append h.whole (head?_fractionText n.fraction n.exponent)
  have hparts : unsigned? n.negative
      (n.whole ++ (fractionText n.fraction ++ exponentText n.exponent)) = some n := by
    refine unsigned?_eq_some.2 ?_
    rw [hdigits]
    exact ⟨h.leading, n.fraction, exponentText n.exponent, n.exponent,
      fractionOf?_fractionText h.fraction n.exponent, exponentOf?_exponentText h.exponent, rfl⟩
  rw [literal]
  cases hs : n.negative with
  | true => rwa [hs] at hparts
  | false =>
      rw [signText, if_neg Bool.false_ne_true, List.nil_append, ofLiteral?_eq,
        sign_of_head? (head?_append_ne_minus h.whole h.leading)]
      rwa [hs] at hparts

/-! ## Digits of a number -/

theorem digits_toDigits (n : Nat) : Digits (Nat.toDigits 10 n) :=
  fun _ hc => Nat.isDigit_of_mem_toDigits (by decide) (by decide) hc

theorem valueOf_toDigits (n : Nat) : valueOf (Nat.toDigits 10 n) = n := by
  rw [valueOf, ← Nat.ofDigitChars_eq_foldl, Nat.ofDigitChars_ten_toDigits]

theorem head?_toDigits_ne_zero {n : Nat} (h : 0 < n) : (Nat.toDigits 10 n).head? ≠ some '0' := by
  induction n using Nat.strongRecOn with
  | ind n ih =>
      by_cases hn : n < 10
      · rw [Nat.toDigits_of_lt_base hn, List.head?_singleton, Ne, Option.some_inj,
          Nat.digitChar_eq_zero]
        exact Nat.pos_iff_ne_zero.1 h
      · have hdiv : 0 < n / 10 := Nat.div_pos (Nat.not_lt.1 hn) (by decide)
        have hhead := ih _ (Nat.div_lt_self h (by decide)) hdiv
        rw [Nat.toDigits_of_base_le (by decide) (Nat.not_lt.1 hn), List.head?_append]
        cases hds : (Nat.toDigits 10 (n / 10)).head? with
        | none => exact absurd (List.head?_eq_none_iff.1 hds) Nat.toDigits_ne_nil
        | some c => rwa [hds] at hhead

theorem properWhole_of_head? {ds : List Char} (hne : ds ≠ []) (h : ds.head? ≠ some '0') :
    properWhole ds = true := by
  cases ds with
  | nil => exact absurd rfl hne
  | cons c ds =>
      have hc : c ≠ '0' := fun he => h (congrArg some he)
      rw [properWhole.eq_def]
      split <;> simp_all

theorem properWhole_toDigits (n : Nat) : properWhole (Nat.toDigits 10 n) = true := by
  rcases Nat.eq_zero_or_pos n with rfl | h
  · rfl
  · exact properWhole_of_head? Nat.toDigits_ne_nil (head?_toDigits_ne_zero h)

theorem proper_toDigits (negative : Bool) (n : Nat) :
    Proper ⟨negative, Nat.toDigits 10 n, none, none⟩ where
  whole := digits_toDigits n
  leading := properWhole_toDigits n
  fraction _ h := by cases h
  exponent _ h := by cases h

theorem ofLiteral?_toDigits (negative : Bool) (n : Nat) :
    ofLiteral? (signText negative ++ Nat.toDigits 10 n) =
      some ⟨negative, Nat.toDigits 10 n, none, none⟩ := by
  have hread := ofLiteral?_literal (proper_toDigits negative n)
  rwa [literal, fractionText, exponentText, List.append_nil, List.append_nil] at hread

theorem ofLiteral?_size (n : Nat) :
    ofLiteral? (toString n).toList = some ⟨false, Nat.toDigits 10 n, none, none⟩ := by
  rw [Nat.toString_eq_ofList_toDigits, String.toList_ofList]
  exact ofLiteral?_toDigits false n

theorem ofLiteral?_int (n : Int) :
    ofLiteral? (toString n).toList =
      some ⟨decide (n < 0), Nat.toDigits 10 n.natAbs, none, none⟩ := by
  cases n with
  | ofNat n => exact ofLiteral?_size n
  | negSucc n =>
      have htext : (toString (Int.negSucc n)).toList = signText true ++ (toString (n + 1)).toList :=
        String.toList_append
      rw [htext, Nat.toString_eq_ofList_toDigits, String.toList_ofList, ofLiteral?_toDigits,
        decide_eq_true (Int.negSucc_lt_zero n), Int.natAbs_negSucc]

theorem toInt?_toDigits (n : Nat) :
    toInt? ⟨false, Nat.toDigits 10 n, none, none⟩ = some (n : Int) := by
  simp [toInt?, valueOf_toDigits]

theorem toInt?_int (n : Int) :
    toInt? ⟨decide (n < 0), Nat.toDigits 10 n.natAbs, none, none⟩ = some n := by
  cases n with
  | ofNat n => exact toInt?_toDigits n
  | negSucc n =>
      rw [decide_eq_true (Int.negSucc_lt_zero n), Int.natAbs_negSucc]
      simp [toInt?, valueOf_toDigits, Int.negSucc_eq]

end Number

open Number

theorem spelled_size (n : Nat) : (size n).Spelled := .num (ofLiteral?_size n)

theorem spelled_int (n : Int) : (int n).Spelled := .num (ofLiteral?_int n)

theorem asSize?_size {n : Nat} (h : Storable.Count n) : (size n).asSize? = some n := by
  have hnum : (size n).asNumber? = _ := ofLiteral?_size n
  have hrange : (0 : Int) ≤ n ∧ (n : Int) < Size.limit := ⟨Int.natCast_nonneg n, Int.ofNat_lt.2 h⟩
  rw [asSize?, hnum, Option.bind_eq_bind, Option.bind_some, toInt?_toDigits, Option.bind_eq_bind,
    Option.bind_some, if_pos hrange]
  rfl

theorem asInt?_int {n : Int} (h : Storable.Integer n) : (int n).asInt? = some n := by
  have hnum : (int n).asNumber? = _ := ofLiteral?_int n
  have hrange : -(Size.signedLimit : Int) ≤ n ∧ n < Size.signedLimit := h
  rw [asInt?, hnum, Option.bind_eq_bind, Option.bind_some, toInt?_int, Option.bind_eq_bind,
    Option.bind_some, if_pos hrange]
  rfl

end Dataflow.Json
