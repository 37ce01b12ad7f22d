import Dataflow.Proofs.Dict
import Dataflow.Proofs.Outcome
import Dataflow.Storage.Codec

/-!
# Reading what was written

A reader *takes* bytes for a value when it reads the value off their front, whatever stands behind
them, and finds that the data ends too early on every part of them that stops short. Readers that
take their own bytes take them in a row, so a codec restores a value if the codecs of its parts
restore the parts.

The bytes at hand are bounded by a limit. Where values nest, reading a deeper level is allowed fewer
bytes, and the level above has taken at least as many.
-/

namespace Dataflow

namespace Reader

variable {α β : Type} {rd : Reader α} {f : α → Reader β} {limit limit' : Nat}
  {bytes bytes' rest : List UInt8} {x : α} {y : β}

/-- With at most `limit` bytes at hand, the reader takes exactly `bytes` for `x`. -/
structure Takes (limit : Nat) (rd : Reader α) (bytes : List UInt8) (x : α) : Prop where
  whole : ∀ rest, (bytes ++ rest).length ≤ limit → rd (bytes ++ rest) = .ok (x, rest)
  cut : ∀ front, front.length ≤ limit → front <+: bytes → front ≠ bytes →
    rd front = .error .endOfData

theorem bind_of_ok (h : rd bytes = .ok (x, rest)) : (rd >>= f) bytes = f x rest := by
  show (rd bytes >>= fun p => f p.1 p.2) = f x rest
  rw [h, Outcome.ok_bind]

theorem bind_of_error {e : BinaryError} (h : rd bytes = .error e) :
    (rd >>= f) bytes = .error e := by
  show (rd bytes >>= fun p => f p.1 p.2) = .error e
  rw [h, Outcome.error_bind]

theorem takes_pure (x : α) : (pure x : Reader α).Takes limit [] x := by
  refine ⟨fun rest _ => rfl, fun front _ hfront hne => ?_⟩
  exact absurd (List.prefix_nil.1 hfront) hne

/-- A reader and what follows it take their bytes in a row. What follows has to get along with fewer
bytes at hand, as many as the reader leaves. -/
theorem Takes.bind_of_le (h : rd.Takes limit bytes x) (hf : (f x).Takes limit' bytes' y)
    (hl : limit ≤ limit' + bytes.length) : (rd >>= f).Takes limit (bytes ++ bytes') y := by
  constructor
  · intro rest hrest
    rw [List.append_assoc] at hrest ⊢
    rw [bind_of_ok (h.whole _ hrest)]
    apply hf.whole
    rw [List.length_append] at hrest
    omega
  · intro front hlength hfront hne
    by_cases hp : bytes <+: front
    · obtain ⟨front', rfl⟩ := hp
      rw [bind_of_ok (h.whole front' hlength)]
      apply hf.cut
      · rw [List.length_append] at hlength
        omega
      · exact (List.prefix_append_right_inj bytes).1 hfront
      · rintro rfl
        exact hne rfl
    · apply bind_of_error
      apply h.cut front hlength
      · have hboth := List.prefix_or_prefix_of_prefix hfront (List.prefix_append bytes bytes')
        exact hboth.resolve_right hp
      · rintro rfl
        exact hp (List.prefix_refl _)

theorem Takes.bind (h : rd.Takes limit bytes x) (hf : (f x).Takes limit bytes' y) :
    (rd >>= f).Takes limit (bytes ++ bytes') y :=
  h.bind_of_le hf (Nat.le_add_right _ _)

theorem Takes.bind_pure (h : rd.Takes limit bytes x) (hf : f x = pure y) :
    (rd >>= f).Takes limit bytes y := by
  have hend := h.bind (hf ▸ takes_pure y)
  rwa [List.append_nil] at hend

theorem Takes.map (h : rd.Takes limit bytes x) (g : α → β) :
    (do return g (← rd) : Reader β).Takes limit bytes (g x) :=
  h.bind_pure rfl

theorem takes_byte (b : UInt8) : byte.Takes limit [b] b := by
  refine ⟨fun rest _ => rfl, fun front _ hfront hne => ?_⟩
  rcases List.prefix_cons_iff.1 hfront with rfl | ⟨front', rfl, hfront'⟩
  · rfl
  · rw [List.prefix_nil.1 hfront'] at hne
    exact absurd rfl hne

theorem takes_bytes (bs : List UInt8) : (Reader.bytes bs.length).Takes limit bs bs := by
  constructor
  · intro rest _
    have hlength : ¬(bs ++ rest).length < bs.length := by
      rw [List.length_append]
      omega
    rw [Reader.bytes, if_neg hlength, List.take_left, List.drop_left]
  · intro front _ hfront hne
    have hlength : front.length < bs.length := by
      refine Nat.lt_of_le_of_ne hfront.length_le fun he => hne ?_
      exact hfront.eq_of_length he
    rw [Reader.bytes, if_pos hlength]

theorem length_littleEndian (k n : Nat) : (littleEndian k n).length = k := by
  induction k generalizing n with
  | zero => rfl
  | succ k ih => rw [littleEndian, List.length_cons, ih]

theorem takes_word {k n : Nat} (h : n < Nat.pow 256 k) :
    (word k).Takes limit (littleEndian k n) n := by
  induction k generalizing n with
  | zero =>
      obtain rfl : n = 0 := by simpa using h
      exact takes_pure 0
  | succ k ih =>
      have hlow : n < Nat.pow 256 k * 256 := h
      have hhigh : n / 256 < Nat.pow 256 k := by omega
      have hvalue : (UInt8.ofNat n).toNat + 256 * (n / 256) = n := by
        rw [UInt8.toNat_ofNat']
        omega
      have hword := (ih hhigh).map fun high => (UInt8.ofNat n).toNat + 256 * high
      rw [hvalue] at hword
      exact (takes_byte _).bind hword

theorem takes_many {item : Reader α} {encode : α → List UInt8} {xs : List α}
    (h : ∀ x ∈ xs, item.Takes limit (encode x) x) :
    (many item xs.length).Takes limit (xs.flatMap encode) xs := by
  induction xs with
  | nil => exact takes_pure []
  | cons x xs ih =>
      rw [List.forall_mem_cons] at h
      exact h.1.bind ((ih h.2).map fun xs => x :: xs)

end Reader

namespace Codec

open Reader

variable {α β : Type} {c : Codec α} {a : Codec α} {b : Codec β} {x : α}

/-- What the codec writes of the value, it takes for the value. -/
def Restores (c : Codec α) (x : α) : Prop := ∀ limit, c.decode.Takes limit (c.encode x) x

theorem Restores.read_append (h : c.Restores x) (rest : List UInt8) :
    c.read (c.encode x ++ rest) = .ok x := by
  rw [read, (h _).whole rest (Nat.le_refl _)]
  rfl

theorem Restores.read_encode (h : c.Restores x) : c.read (c.encode x) = .ok x := by
  have hread := h.read_append []
  rwa [List.append_nil] at hread

theorem Restores.read_cut (h : c.Restores x) {front : List UInt8} (hfront : front <+: c.encode x)
    (hne : front ≠ c.encode x) : c.read front = .error .endOfData := by
  rw [read, (h _).cut front (Nat.le_refl _) hfront hne]
  rfl

/-! ## Parts -/

theorem restores_via {pack : β → α} {unpack : α → β} {y : β} (h : c.Restores (pack y))
    (hy : unpack (pack y) = y) : (c.via pack unpack).Restores y := by
  intro limit
  have hmap := (h limit).map unpack
  rw [hy] at hmap
  exact hmap

theorem restores_pair {p : α × β} (ha : a.Restores p.1) (hb : b.Restores p.2) :
    (pair a b).Restores p := by
  intro limit
  exact (ha limit).bind ((hb limit).map fun y => (p.1, y))

/-! ## Numbers -/

theorem restores_word {k n : Nat} (h : n < Nat.pow 256 k) : (word k).Restores n :=
  fun _ => takes_word h

theorem restores_size {n : Nat} (h : n < Size.limit) : size.Restores n := restores_word h

theorem restores_int {n : Int} (hl : -(Size.signedLimit : Int) ≤ n)
    (hu : n < (Size.signedLimit : Int)) : int.Restores n := by
  have hlimit : Size.limit = 2 ^ 64 := rfl
  have hsigned : Size.signedLimit = 2 ^ 63 := rfl
  rw [hsigned] at hl hu
  refine restores_via (restores_size ?_) ?_
  · rw [hlimit]
    omega
  · rw [Size.toSigned, hlimit, hsigned]
    split <;> omega

theorem restores_single (x : Single) : single.Restores x := by
  refine restores_via (restores_word ?_) ?_
  · exact x.bits.toNat_lt
  · rw [UInt32.ofNat_toNat]

theorem restores_double (x : Double) : double.Restores x := by
  refine restores_via (restores_word ?_) ?_
  · exact x.bits.toNat_lt
  · rw [UInt64.ofNat_toNat]

theorem restores_bool (b : Bool) : bool.Restores b := by
  intro limit
  cases b with
  | true => exact (takes_byte 1).bind_pure rfl
  | false => exact (takes_byte 0).bind_pure rfl

/-! ## Texts, lists and dictionaries -/

theorem fromUTF8?_toUTF8 (s : String) : String.fromUTF8? ⟨s.toUTF8.data.toList.toArray⟩ = some s := by
  rw [Array.toArray_toList]
  exact dif_pos s.isValidUTF8

theorem restores_text {s : String} (h : s.toUTF8.size < Size.limit) : text.Restores s := by
  intro limit
  refine (takes_word h).bind ((takes_bytes s.toUTF8.data.toList).bind_pure ?_)
  rw [fromUTF8?_toUTF8]

theorem restores_list {xs : List α} (hlength : xs.length < Size.limit)
    (h : ∀ x ∈ xs, c.Restores x) : (list c).Restores xs := by
  intro limit
  exact (takes_word hlength).bind (takes_many fun x hx => h x hx limit)

theorem restores_option {o : Option α} (h : ∀ x ∈ o, c.Restores x) : (option c).Restores o := by
  intro limit
  cases o with
  | none => exact (takes_byte 0).bind_pure rfl
  | some x => exact (takes_byte 1).bind ((h x rfl limit).map some)

theorem restores_dict {d : Dict α} (ho : d.Ordered) (hlength : d.entries.length < Size.limit)
    (hk : ∀ e ∈ d.entries, e.1.toUTF8.size < Size.limit)
    (hv : ∀ e ∈ d.entries, c.Restores e.2) : (dict c).Restores d := by
  refine restores_via (restores_list hlength fun e he => ?_) (Dict.ofList_entries ho)
  exact restores_pair (restores_text (hk e he)) (hv e he)

end Codec

end Dataflow
