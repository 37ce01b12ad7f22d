import Mathlib.Data.List.Forall2

/-!
# Outcomes

What the success of a computation says about its steps. A sequence of steps succeeds when every
step does; a pass over a list succeeds when it does so at every element, and a map over a list
then pairs each element with its result. A successful fold is the fold of the values of its steps.
-/

namespace Dataflow.Outcome

universe u v w

variable {ε : Type u} {ε' : Type v} {α β : Type w}

@[simp] theorem pure_eq (a : α) : (pure a : Except ε α) = .ok a := rfl

@[simp] theorem ok_bind (a : α) (f : α → Except ε β) : (.ok a >>= f) = f a := rfl

@[simp] theorem error_bind (e : ε) (f : α → Except ε β) : (.error e >>= f) = .error e := rfl

theorem exists_of_isOk {x : Except ε α} (h : x.isOk = true) : ∃ a, x = .ok a := by
  cases x with
  | error e => cases h
  | ok a => exact ⟨a, rfl⟩

theorem isOk_of_eq_ok {x : Except ε α} {a : α} (h : x = .ok a) : x.isOk := by
  rw [h]
  rfl

theorem bind_eq_ok {x : Except ε α} {f : α → Except ε β} {b : β} :
    (x >>= f) = .ok b ↔ ∃ a, x = .ok a ∧ f a = .ok b := by
  cases x <;> simp

theorem bind_eq_error {x : Except ε α} {f : α → Except ε β} {e : ε} :
    (x >>= f) = .error e ↔ x = .error e ∨ ∃ a, x = .ok a ∧ f a = .error e := by
  cases x <;> simp

theorem isOk_bind {x : Except ε α} {f : α → Except ε β} :
    (x >>= f).isOk ↔ ∃ a, x = .ok a ∧ (f a).isOk := by
  cases x <;> simp [Except.isOk, Except.toBool]

theorem map_eq_ok {x : Except ε α} {f : α → β} {b : β} :
    x.map f = .ok b ↔ ∃ a, x = .ok a ∧ f a = b := by
  cases x <;> simp [Except.map]

theorem map_eq_error {x : Except ε α} {f : α → β} {e : ε} :
    x.map f = .error e ↔ x = .error e := by
  cases x <;> simp [Except.map]

theorem isOk_map {x : Except ε α} {f : α → β} : (x.map f).isOk = x.isOk := by
  cases x <;> rfl

theorem mapError_eq_ok {x : Except ε α} {f : ε → ε'} {a : α} :
    x.mapError f = .ok a ↔ x = .ok a := by
  cases x <;> simp [Except.mapError]

theorem mapError_eq_error {x : Except ε α} {f : ε → ε'} {e : ε'} :
    x.mapError f = .error e ↔ ∃ e', x = .error e' ∧ f e' = e := by
  cases x <;> simp [Except.mapError]

theorem forM_cons (f : α → Except ε PUnit) (x : α) (xs : List α) :
    (x :: xs).forM f = (f x >>= fun _ => xs.forM f) := rfl

/-- A pass over a list succeeds exactly when it does at every element. -/
theorem forM_eq_ok {f : α → Except ε PUnit} {xs : List α} :
    xs.forM f = .ok ⟨⟩ ↔ ∀ x ∈ xs, f x = .ok ⟨⟩ := by
  induction xs with
  | nil => simp [List.forM]
  | cons x xs ih =>
      rw [forM_cons, bind_eq_ok, List.forall_mem_cons, ← ih]
      constructor
      · rintro ⟨⟨⟩, hx, hxs⟩
        exact ⟨hx, hxs⟩
      · rintro ⟨hx, hxs⟩
        exact ⟨_, hx, hxs⟩

/-- A pass that failed did so at one of the elements. -/
theorem exists_of_forM_eq_error {f : α → Except ε PUnit} {xs : List α} {e : ε}
    (h : xs.forM f = .error e) : ∃ x ∈ xs, f x = .error e := by
  induction xs with
  | nil => cases h
  | cons x xs ih =>
      rw [forM_cons, bind_eq_error] at h
      rcases h with hx | ⟨⟨⟩, -, hxs⟩
      · exact ⟨x, List.mem_cons_self, hx⟩
      · obtain ⟨y, hy, he⟩ := ih hxs
        exact ⟨y, List.mem_cons_of_mem _ hy, he⟩

/-- A map over a list succeeds exactly when its results belong to the elements one by one. -/
theorem mapM_eq_ok {f : α → Except ε β} {xs : List α} {ys : List β} :
    xs.mapM f = .ok ys ↔ List.Forall₂ (fun x y => f x = .ok y) xs ys := by
  induction xs generalizing ys with
  | nil => simp [eq_comm]
  | cons x xs ih =>
      rw [List.mapM_cons, bind_eq_ok, List.forall₂_cons_left_iff]
      constructor
      · rintro ⟨y, hx, h⟩
        obtain ⟨zs, hzs, hz⟩ := bind_eq_ok.1 h
        cases hz
        exact ⟨y, zs, hx, ih.1 hzs, rfl⟩
      · rintro ⟨y, zs, hx, hzs, rfl⟩
        exact ⟨y, hx, bind_eq_ok.2 ⟨zs, ih.2 hzs, rfl⟩⟩

/-- The same for optional results. -/
theorem mapM_eq_some {f : α → Option β} {xs : List α} {ys : List β} :
    xs.mapM f = some ys ↔ List.Forall₂ (fun x y => f x = some y) xs ys := by
  induction xs generalizing ys with
  | nil => simp [eq_comm]
  | cons x xs ih =>
      simp only [List.mapM_cons, Option.bind_eq_bind, Option.bind_eq_some_iff,
        List.forall₂_cons_left_iff, ih]
      constructor
      · rintro ⟨y, hx, zs, hzs, hz⟩
        cases hz
        exact ⟨y, zs, hx, hzs, rfl⟩
      · rintro ⟨y, zs, hx, hzs, rfl⟩
        exact ⟨y, hx, zs, hzs, rfl⟩

theorem mapM_congr {m : Type w → Type v} [Monad m] [LawfulMonad m] {f g : α → m β} {xs : List α}
    (h : ∀ x ∈ xs, f x = g x) : xs.mapM f = xs.mapM g := by
  induction xs with
  | nil => rfl
  | cons x xs ih =>
      rw [List.forall_mem_cons] at h
      rw [List.mapM_cons, List.mapM_cons, h.1, ih h.2]

/-- In a pairing of two lists every element on the left has a partner. -/
theorem exists_right_of_mem {γ : Type v} {R : α → γ → Prop} {xs : List α} {ys : List γ}
    (h : List.Forall₂ R xs ys) {x : α} (hx : x ∈ xs) : ∃ y ∈ ys, R x y := by
  induction h with
  | nil => cases hx
  | @cons a b as bs hab _ ih =>
      rcases List.mem_cons.1 hx with rfl | hx
      · exact ⟨b, List.mem_cons_self, hab⟩
      · obtain ⟨y, hy, hr⟩ := ih hx
        exact ⟨y, List.mem_cons_of_mem _ hy, hr⟩

/-- In a pairing of two lists every element on the right has a partner. -/
theorem exists_left_of_mem {γ : Type v} {R : α → γ → Prop} {xs : List α} {ys : List γ}
    (h : List.Forall₂ R xs ys) {y : γ} (hy : y ∈ ys) : ∃ x ∈ xs, R x y :=
  exists_right_of_mem h.flip hy

/-- Elements that have partners each can be paired. -/
theorem exists_forall₂ {γ : Type v} {R : α → γ → Prop} {xs : List α}
    (h : ∀ x ∈ xs, ∃ y, R x y) : ∃ ys, List.Forall₂ R xs ys := by
  induction xs with
  | nil => exact ⟨[], .nil⟩
  | cons x xs ih =>
      rw [List.forall_mem_cons] at h
      obtain ⟨⟨y, hy⟩, h⟩ := h
      obtain ⟨ys, hys⟩ := ih h
      exact ⟨y :: ys, .cons hy hys⟩

/-- In a pairing of two lists the elements at one position are partners. -/
theorem exists_getElem?_of_forall₂ {γ : Type v} {R : α → γ → Prop} {xs : List α} {ys : List γ}
    (h : List.Forall₂ R xs ys) {i : Nat} {x : α} (hx : xs[i]? = some x) :
    ∃ y, ys[i]? = some y ∧ R x y := by
  induction h generalizing i with
  | nil => cases hx
  | @cons a b as bs hab _ ih =>
      cases i with
      | zero =>
          obtain rfl := Option.some.inj hx
          exact ⟨b, rfl, hab⟩
      | succ i => exact ih hx

/-- Two pairings one after the other. -/
theorem forall₂_comp {γ : Type v} {δ : Type u} {R : α → γ → Prop} {S : γ → δ → Prop}
    {T : α → δ → Prop} {xs : List α} {ys : List γ} {zs : List δ} (h : List.Forall₂ R xs ys)
    (h' : List.Forall₂ S ys zs) (hT : ∀ x y z, R x y → S y z → T x z) :
    List.Forall₂ T xs zs := by
  induction h generalizing zs with
  | nil =>
      cases h'
      exact .nil
  | cons hxy _ ih =>
      obtain ⟨z, zs', hyz, hzs, rfl⟩ := List.forall₂_cons_left_iff.1 h'
      exact .cons (hT _ _ _ hxy hyz) (ih hzs)

/-- A failed map failed at one of the elements. -/
theorem exists_of_mapM_eq_error {f : α → Except ε β} {xs : List α} {e : ε}
    (h : xs.mapM f = .error e) : ∃ x ∈ xs, f x = .error e := by
  induction xs with
  | nil => cases h
  | cons x xs ih =>
      rw [List.mapM_cons, bind_eq_error] at h
      rcases h with hx | ⟨_, _, h⟩
      · exact ⟨x, List.mem_cons_self, hx⟩
      · rcases bind_eq_error.1 h with hxs | ⟨_, _, h⟩
        · obtain ⟨y, hy, he⟩ := ih hxs
          exact ⟨y, List.mem_cons_of_mem _ hy, he⟩
        · cases h

theorem isOk_mapM {f : α → Except ε β} {xs : List α} :
    (xs.mapM f).isOk ↔ ∀ x ∈ xs, (f x).isOk := by
  constructor
  · intro h x hx
    obtain ⟨ys, hys⟩ := exists_of_isOk h
    obtain ⟨y, -, hy⟩ := exists_right_of_mem (mapM_eq_ok.1 hys) hx
    rw [hy]
    rfl
  · intro h
    obtain ⟨ys, hys⟩ := exists_forall₂ fun x hx => exists_of_isOk (h x hx)
    rw [mapM_eq_ok.2 hys]
    rfl

/-! ## Folds -/

/-- A fold succeeds exactly when it does at every element, if whether it does there does not depend
on what it has reached. -/
theorem isOk_foldlM {f : α → β → Except ε α} {p : β → Prop} {xs : List β}
    (h : ∀ x ∈ xs, ∀ acc, (f acc x).isOk ↔ p x) (acc : α) :
    (xs.foldlM f acc).isOk ↔ ∀ x ∈ xs, p x := by
  induction xs generalizing acc with
  | nil => exact ⟨fun _ => nofun, fun _ => rfl⟩
  | cons x xs ih =>
      rw [List.forall_mem_cons] at h
      rw [List.foldlM_cons, isOk_bind, List.forall_mem_cons, ← h.1 acc]
      constructor
      · rintro ⟨acc', hx, hxs⟩
        rw [hx]
        exact ⟨rfl, (ih h.2 acc').1 hxs⟩
      · rintro ⟨hx, hxs⟩
        obtain ⟨acc', hx⟩ := exists_of_isOk hx
        exact ⟨acc', hx, (ih h.2 acc').2 hxs⟩

/-- A successful fold is the fold of what its steps compute. -/
theorem foldlM_eq_ok {f : α → β → Except ε α} {g : α → β → α} {xs : List β}
    (h : ∀ x ∈ xs, ∀ acc b, f acc x = .ok b → b = g acc x) {acc b : α}
    (he : xs.foldlM f acc = .ok b) : b = xs.foldl g acc := by
  induction xs generalizing acc with
  | nil =>
      cases he
      rfl
  | cons x xs ih =>
      rw [List.forall_mem_cons] at h
      rw [List.foldlM_cons] at he
      obtain ⟨acc', hx, he⟩ := bind_eq_ok.1 he
      rw [List.foldl_cons, ← h.1 acc acc' hx]
      exact ih h.2 he

theorem foldlM_congr {f g : α → β → Except ε α} {xs : List β}
    (h : ∀ x ∈ xs, ∀ acc, f acc x = g acc x) (acc : α) : xs.foldlM f acc = xs.foldlM g acc := by
  induction xs generalizing acc with
  | nil => rfl
  | cons x xs ih =>
      rw [List.forall_mem_cons] at h
      rw [List.foldlM_cons, List.foldlM_cons, h.1 acc]
      exact bind_congr (ih h.2)

/-- What every step keeps, a successful fold keeps. -/
theorem foldlM_keeps {f : α → β → Except ε α} {P : α → Prop} {xs : List β}
    (h : ∀ x acc b, P acc → f acc x = .ok b → P b) {acc b : α} (ha : P acc)
    (he : xs.foldlM f acc = .ok b) : P b := by
  induction xs generalizing acc with
  | nil =>
      cases he
      exact ha
  | cons x xs ih =>
      rw [List.foldlM_cons] at he
      obtain ⟨acc', hx, he⟩ := bind_eq_ok.1 he
      exact ih (h x acc acc' ha hx) he

end Dataflow.Outcome
