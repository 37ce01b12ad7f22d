import Dataflow.Dict
import Mathlib.Data.List.Induction
import Mathlib.Data.List.Nodup

/-!
# Entries of dictionaries

A dictionary built from pairs with distinct names has exactly these pairs as its entries, in some
order, and each name leads to its own value. However it is built, its keys are in order, and pairs
that were in order already are left as they are.
-/

namespace Dataflow.Dict

variable {α : Type u} {β : Type v}

theorem lookup_eq_some_iff_mem {es : List (String × α)} (h : (es.map Prod.fst).Nodup)
    {k : String} {x : α} : es.lookup k = some x ↔ (k, x) ∈ es := by
  induction es with
  | nil => simp
  | cons e es ih =>
      obtain ⟨k', y⟩ := e
      rw [List.map_cons, List.nodup_cons] at h
      by_cases hk : k = k'
      · subst hk
        have hx : (k, x) ∉ es := fun hm => h.1 (List.mem_map.2 ⟨_, hm, rfl⟩)
        simp [hx, eq_comm]
      · rw [List.lookup_cons, beq_false_of_ne hk, ih h.2]
        simp [hk]

theorem mem_of_lookup_eq_some {es : List (String × α)} {k : String} {x : α}
    (h : es.lookup k = some x) : (k, x) ∈ es := by
  obtain ⟨l₁, l₂, rfl, -⟩ := List.lookup_eq_some_iff.1 h
  simp

theorem lookup_eq_none_iff_notMem {es : List (String × α)} {k : String} :
    es.lookup k = none ↔ k ∉ es.map Prod.fst := by
  rw [List.lookup_eq_none_iff, List.mem_map, not_exists]
  simp only [bne_iff_ne, not_and]
  exact forall₂_congr fun e _ => ne_comm

/-- Entries that are made one by one from others are found under the same keys. -/
theorem exists_lookup_of_forall₂ {R : String × α → β → Prop} {es : List (String × α)}
    {xs : List (String × β)} (h : List.Forall₂ (fun e x => x.1 = e.1 ∧ R e x.2) es xs)
    {k : String} {a : α} (hk : es.lookup k = some a) : ∃ b, xs.lookup k = some b ∧ R (k, a) b := by
  induction h with
  | nil => cases hk
  | @cons e x es xs hx _ ih =>
      obtain ⟨k', a'⟩ := e
      obtain ⟨k'', b⟩ := x
      obtain ⟨rfl, hR⟩ := hx
      by_cases hkey : k = k''
      · subst hkey
        rw [List.lookup_cons_self] at hk ⊢
        cases hk
        exact ⟨b, rfl, hR⟩
      · rw [List.lookup_cons, beq_false_of_ne hkey] at hk ⊢
        exact ih hk

theorem mem_map_fst_insertEntry {k k' : String} {x : α} {es : List (String × α)} :
    k' ∈ (insertEntry k x es).map Prod.fst ↔ k' = k ∨ k' ∈ es.map Prod.fst := by
  induction es with
  | nil => simp [insertEntry]
  | cons e es ih =>
      obtain ⟨k'', y⟩ := e
      rw [insertEntry]
      split
      · simp
      · split
        · next hk => subst hk; simp
        · rw [List.map_cons, List.mem_cons, ih, List.map_cons, List.mem_cons]
          exact or_left_comm

theorem mem_keys_insert {d : Dict α} {k k' : String} {x : α} :
    k' ∈ (d.insert k x).keys ↔ k' = k ∨ k' ∈ d.keys :=
  mem_map_fst_insertEntry

theorem insertEntry_perm {k : String} {es : List (String × α)} (h : k ∉ es.map Prod.fst)
    (x : α) : (insertEntry k x es).Perm ((k, x) :: es) := by
  induction es with
  | nil => exact .refl _
  | cons e es ih =>
      obtain ⟨k', y⟩ := e
      rw [List.map_cons, List.mem_cons, not_or] at h
      rw [insertEntry]
      split
      · exact .refl _
      · rw [if_neg h.1]
        exact ((ih h.2).cons _).trans (.swap _ _ _)

theorem mem_keys_foldl_insert {es : List (String × α)} {d : Dict α} {k : String} :
    k ∈ (es.foldl (fun d e => d.insert e.1 e.2) d).keys ↔ k ∈ d.keys ∨ k ∈ es.map Prod.fst := by
  induction es generalizing d with
  | nil => simp
  | cons e es ih =>
      rw [List.foldl_cons, ih, mem_keys_insert, List.map_cons, List.mem_cons]
      constructor
      · rintro ((h | h) | h)
        · exact Or.inr (Or.inl h)
        · exact Or.inl h
        · exact Or.inr (Or.inr h)
      · rintro (h | h | h)
        · exact Or.inl (Or.inr h)
        · exact Or.inl (Or.inl h)
        · exact Or.inr h

theorem mem_keys_ofList {es : List (String × α)} {k : String} :
    k ∈ (ofList es).keys ↔ k ∈ es.map Prod.fst := by
  rw [ofList, mem_keys_foldl_insert]
  simp [keys, empty]

theorem get?_foldl_insert_of_notMem {es : List (String × α)} {d : Dict α} {k : String}
    (h : k ∉ es.map Prod.fst) : (es.foldl (fun d e => d.insert e.1 e.2) d).get? k = d.get? k := by
  induction es generalizing d with
  | nil => rfl
  | cons e es ih =>
      rw [List.map_cons, List.mem_cons, not_or] at h
      rw [List.foldl_cons, ih h.2, get?_insert_of_ne d h.1]

theorem foldl_insert_perm {es : List (String × α)} {d : Dict α} (h : (es.map Prod.fst).Nodup)
    (hd : ∀ k ∈ es.map Prod.fst, k ∉ d.keys) :
    (es.foldl (fun d e => d.insert e.1 e.2) d).entries.Perm (d.entries ++ es) := by
  induction es generalizing d with
  | nil => simp
  | cons e es ih =>
      rw [List.map_cons, List.nodup_cons] at h
      have hk : e.1 ∉ d.keys := hd e.1 (by simp)
      rw [List.foldl_cons]
      refine (ih h.2 fun k hm => ?_).trans ?_
      · rw [mem_keys_insert, not_or]
        exact ⟨fun he => h.1 (he ▸ hm), hd k (List.mem_cons_of_mem _ hm)⟩
      · exact ((insertEntry_perm hk e.2).append_right es).trans List.perm_middle.symm

theorem ofList_perm {es : List (String × α)} (h : (es.map Prod.fst).Nodup) :
    (ofList es).entries.Perm es := by
  exact foldl_insert_perm (d := empty) h (by simp [keys, empty])

theorem mem_entries_ofList {es : List (String × α)} (h : (es.map Prod.fst).Nodup)
    {e : String × α} : e ∈ (ofList es).entries ↔ e ∈ es :=
  (ofList_perm h).mem_iff

theorem get?_ofList {es : List (String × α)} (h : (es.map Prod.fst).Nodup) {k : String} {x : α} :
    (ofList es).get? k = some x ↔ (k, x) ∈ es := by
  have hd : ((ofList es).entries.map Prod.fst).Nodup :=
    ((ofList_perm h).map Prod.fst).nodup_iff.2 h
  rw [get?, lookup_eq_some_iff_mem hd, mem_entries_ofList h]

/-! ## Entries in order -/

theorem insertEntry_of_forall_lt {k : String} {es : List (String × α)} (h : ∀ e ∈ es, e.1 < k)
    (x : α) : insertEntry k x es = es ++ [(k, x)] := by
  induction es with
  | nil => rfl
  | cons e es ih =>
      obtain ⟨k', y⟩ := e
      rw [List.forall_mem_cons] at h
      have hlt : ¬k < k' := fun hk => String.lt_irrefl k (String.lt_trans hk h.1)
      have hne : k ≠ k' := by
        rintro rfl
        exact String.lt_irrefl k h.1
      rw [insertEntry, if_neg hlt, if_neg hne, ih h.2, List.cons_append]

theorem foldl_insert_of_ordered {es : List (String × α)} {d : Dict α}
    (h : (d.entries ++ es).Pairwise fun a b => a.1 < b.1) :
    es.foldl (fun d e => d.insert e.1 e.2) d = ⟨d.entries ++ es⟩ := by
  induction es generalizing d with
  | nil => rw [List.foldl_nil, List.append_nil]
  | cons e es ih =>
      have hlast : ∀ e' ∈ d.entries, e'.1 < e.1 := fun e' he' =>
        (List.pairwise_append.1 h).2.2 e' he' e List.mem_cons_self
      have hinsert : d.insert e.1 e.2 = ⟨d.entries ++ [e]⟩ := by
        rw [insert, insertEntry_of_forall_lt hlast]
      rw [List.foldl_cons, hinsert, ih, List.append_assoc, List.singleton_append]
      rwa [List.append_assoc, List.singleton_append]

theorem ofList_entries {d : Dict α} (h : d.Ordered) : ofList d.entries = d :=
  foldl_insert_of_ordered (d := empty) h

theorem mem_insertEntry {k : String} {x : α} {es : List (String × α)} {e : String × α}
    (h : e ∈ insertEntry k x es) : e = (k, x) ∨ e ∈ es := by
  induction es with
  | nil => exact Or.inl (List.mem_singleton.1 h)
  | cons e' es ih =>
      obtain ⟨k', y⟩ := e'
      rw [insertEntry] at h
      split at h
      · exact List.mem_cons.1 h
      · split at h
        · exact (List.mem_cons.1 h).imp_right (List.mem_cons_of_mem _)
        · rcases List.mem_cons.1 h with rfl | h
          · exact Or.inr List.mem_cons_self
          · exact (ih h).imp_right (List.mem_cons_of_mem _)

theorem length_insertEntry_le {k : String} {x : α} {es : List (String × α)} :
    (insertEntry k x es).length ≤ es.length + 1 := by
  induction es with
  | nil => exact Nat.le_refl _
  | cons e es ih =>
      obtain ⟨k', y⟩ := e
      rw [insertEntry]
      split
      · exact Nat.le_refl _
      · split
        · exact Nat.le_succ _
        · exact Nat.succ_le_succ ih

theorem ordered_insert {d : Dict α} (h : d.Ordered) (k : String) (x : α) :
    (d.insert k x).Ordered := by
  obtain ⟨es⟩ := d
  show (insertEntry k x es).Pairwise fun a b => a.1 < b.1
  induction es with
  | nil => exact List.pairwise_singleton _ _
  | cons e es ih =>
      obtain ⟨k', y⟩ := e
      obtain ⟨hlt, hes⟩ := List.pairwise_cons.1 h
      rw [insertEntry]
      split
      · next hk =>
        refine List.pairwise_cons.2 ⟨?_, h⟩
        rw [List.forall_mem_cons]
        exact ⟨hk, fun e he => String.lt_trans hk (hlt e he)⟩
      · next hk =>
        split
        · next he =>
          subst he
          exact List.pairwise_cons.2 ⟨hlt, hes⟩
        · next hne =>
          refine List.pairwise_cons.2 ⟨fun e he => ?_, ih hes⟩
          rcases mem_insertEntry he with rfl | he
          · exact Std.lt_of_le_of_ne (String.not_lt.1 hk) (Ne.symm hne)
          · exact hlt e he

theorem ofList_append_singleton (es : List (String × α)) (e : String × α) :
    ofList (es ++ [e]) = (ofList es).insert e.1 e.2 := by
  rw [ofList, List.foldl_append]
  rfl

theorem insertEntry_map (f : String → α → β) (k : String) (x : α) (es : List (String × α)) :
    (insertEntry k x es).map (fun e => (e.1, f e.1 e.2)) =
      insertEntry k (f k x) (es.map fun e => (e.1, f e.1 e.2)) := by
  induction es with
  | nil => rfl
  | cons e es ih =>
      obtain ⟨k', y⟩ := e
      rw [insertEntry, List.map_cons, insertEntry]
      split
      · rfl
      · split
        · rfl
        · rw [List.map_cons, ih]

theorem map_insert (f : α → β) (d : Dict α) (k : String) (x : α) :
    (d.insert k x).map f = (d.map f).insert k (f x) :=
  congrArg Dict.mk (insertEntry_map (fun _ => f) k x d.entries)

theorem entries_ofList_map (f : String → α → β) (es : List (String × α)) :
    (ofList (es.map fun e => (e.1, f e.1 e.2))).entries =
      (ofList es).entries.map fun e => (e.1, f e.1 e.2) := by
  induction es using List.reverseRecOn with
  | nil => rfl
  | append_singleton es e ih =>
      rw [List.map_append, List.map_singleton, ofList_append_singleton, ofList_append_singleton,
        insert, ih, insert, insertEntry_map]

theorem get?_map (f : α → β) (d : Dict α) (k : String) : (d.map f).get? k = (d.get? k).map f := by
  obtain ⟨es⟩ := d
  show (es.map fun e => (e.1, f e.2)).lookup k = (es.lookup k).map f
  induction es with
  | nil => rfl
  | cons e es ih =>
      rw [List.map_cons, List.lookup_cons, List.lookup_cons, ih]
      split <;> rfl

theorem insert_of_get? {d : Dict α} (ho : d.Ordered) {k : String} {x : α}
    (h : d.get? k = some x) : d.insert k x = d := by
  obtain ⟨es⟩ := d
  show Dict.mk (insertEntry k x es) = ⟨es⟩
  replace h : es.lookup k = some x := h
  replace ho : es.Pairwise fun a b => a.1 < b.1 := ho
  induction es with
  | nil => cases h
  | cons e es ih =>
      obtain ⟨k', y⟩ := e
      obtain ⟨hlt, hes⟩ := List.pairwise_cons.1 ho
      by_cases hk : k = k'
      · subst hk
        rw [List.lookup_cons_self] at h
        cases h
        rw [insertEntry, if_neg (String.lt_irrefl k), if_pos rfl]
      · rw [List.lookup_cons, beq_false_of_ne hk] at h
        have hgt : ¬k < k' :=
          fun hlt' => String.lt_irrefl k (String.lt_trans hlt' (hlt _ (mem_of_lookup_eq_some h)))
        rw [insertEntry, if_neg hgt, if_neg hk, Dict.mk.inj (ih h hes)]

theorem get?_foldl_insert_self {names : List String} {d : Dict String} {k : String} :
    ((names.zip names).foldl (fun d e => d.insert e.1 e.2) d).get? k =
      if k ∈ names then some k else d.get? k := by
  induction names generalizing d with
  | nil => rfl
  | cons n ns ih =>
      rw [List.zip_cons_cons, List.foldl_cons, ih]
      by_cases hk : k = n
      · subst hk
        simp
      · simp [hk, get?_insert_of_ne]

/-- In a dictionary of pairs a name has the value it was paired with last. -/
theorem get?_ofList_eq_lookup (es : List (String × α)) (k : String) :
    (ofList es).get? k = es.reverse.lookup k := by
  induction es using List.reverseRecOn with
  | nil => rfl
  | append_singleton es e ih =>
      rw [ofList_append_singleton, List.reverse_append, List.reverse_singleton,
        List.singleton_append]
      by_cases hk : k = e.1
      · subst hk
        rw [get?_insert_self, List.lookup_cons_self]
      · rw [get?_insert_of_ne _ hk, ih, List.lookup_cons, beq_false_of_ne hk]

theorem ordered_ofList (es : List (String × α)) : (ofList es).Ordered := by
  induction es using List.reverseRecOn with
  | nil => exact List.Pairwise.nil
  | append_singleton es e ih =>
      rw [ofList_append_singleton]
      exact ordered_insert ih e.1 e.2

theorem length_entries_ofList_le (es : List (String × α)) :
    (ofList es).entries.length ≤ es.length := by
  induction es using List.reverseRecOn with
  | nil => exact Nat.le_refl _
  | append_singleton es e ih =>
      rw [ofList_append_singleton, List.length_append]
      exact Nat.le_trans length_insertEntry_le (Nat.succ_le_succ ih)

theorem pairwise_keys {d : Dict α} (h : d.Ordered) : d.keys.Pairwise (· < ·) :=
  List.pairwise_map.2 h

theorem mem_entries_iff {d : Dict α} (h : d.Ordered) {k : String} {x : α} :
    (k, x) ∈ d.entries ↔ d.get? k = some x := by
  have hd : d.keys.Nodup := by
    refine (pairwise_keys h).imp ?_
    rintro a _ hlt rfl
    exact String.lt_irrefl a hlt
  exact (lookup_eq_some_iff_mem hd).symm

theorem mem_keys_iff_isSome {d : Dict α} {k : String} : k ∈ d.keys ↔ (d.get? k).isSome = true := by
  rw [← not_iff_not, Bool.not_eq_true, Option.isSome_eq_false_iff, Option.isNone_iff_eq_none]
  exact lookup_eq_none_iff_notMem.symm

theorem mem_of_mem_entries_ofList {es : List (String × α)} {e : String × α}
    (h : e ∈ (ofList es).entries) : e ∈ es := by
  induction es using List.reverseRecOn with
  | nil => exact h
  | append_singleton es e' ih =>
      rw [ofList_append_singleton] at h
      rw [List.mem_append, List.mem_singleton]
      exact (mem_insertEntry h).symm.imp_left ih

end Dataflow.Dict
