import Dataflow.Proofs.Outcome
import Dataflow.Tensor.Convolution
import Mathlib.Data.List.Basic

/-!
# Filling the result of a convolution

The loops over the outputs of a convolution write each of them to a position of its own. The
positions are met in increasing order and without a gap, so nested loops are one loop over the
positions, in which a position tells the indices by division. What such a loop has written when it
comes to a position is a prefix of the result, and the rest still is as it was at the start.
-/

namespace Dataflow.Convolution

theorem foldlM_range_mul {ε α : Type} (f : α → Nat → Nat → Except ε α) (m n : Nat) (acc : α) :
    (List.range m).foldlM (fun acc i => (List.range n).foldlM (fun acc j => f acc i j) acc) acc =
      (List.range (m * n)).foldlM (fun acc k => f acc (k / n) (k % n)) acc := by
  induction m generalizing acc with
  | zero =>
      rw [Nat.zero_mul]
      rfl
  | succ m ih =>
      rw [List.range_succ, List.foldlM_append, ih, Nat.succ_mul, List.range_add,
        List.foldlM_append]
      refine bind_congr fun acc => ?_
      rw [List.foldlM_cons, List.foldlM_map]
      refine (bind_pure _).trans (Outcome.foldlM_congr (fun j hj acc => ?_) acc)
      have hj := List.mem_range.1 hj
      rw [Nat.mul_comm m n, Nat.mul_add_div (by omega), Nat.div_eq_of_lt hj, Nat.add_zero,
        Nat.mul_add_mod, Nat.mod_eq_of_lt hj]

variable {batch outs rows columns : Nat} {output : Nat → Nat → Nat → Nat → Except Fault Single}

/-- The four loops are one loop over all positions. -/
theorem fill_eq_foldlM (data : Array Single) :
    fill batch outs rows columns output data =
      (List.range (batch * outs * rows * columns)).foldlM (fun data k => do
        let v ← output (k / (columns * rows * outs)) (k / (columns * rows) % outs)
          (k / columns % rows) (k % columns)
        write data k v) data := by
  have hplace : ∀ k, ((k / columns / rows / outs * outs + k / columns / rows % outs) * rows +
      k / columns % rows) * columns + k % columns = k := by
    intro k
    rw [Nat.div_add_mod', Nat.div_add_mod', Nat.div_add_mod']
  unfold fill
  rw [foldlM_range_mul fun data b o => (List.range rows).foldlM (fun data y =>
      (List.range columns).foldlM (fun data x => do
        let v ← output b o y x
        write data (((b * outs + o) * rows + y) * columns + x) v) data) data,
    foldlM_range_mul fun data p y => (List.range columns).foldlM (fun data x => do
      let v ← output (p / outs) (p % outs) y x
      write data (((p / outs * outs + p % outs) * rows + y) * columns + x) v) data,
    foldlM_range_mul fun data q x => do
      let v ← output (q / rows / outs) (q / rows % outs) (q % rows) x
      write data (((q / rows / outs * outs + q / rows % outs) * rows + q % rows) * columns + x) v]
  simp only [hplace]
  simp only [Nat.div_div_eq_div_mul]

theorem size_of_fill {data data' : Array Single}
    (h : fill batch outs rows columns output data = .ok data') : data'.size = data.size := by
  rw [fill_eq_foldlM] at h
  refine Outcome.foldlM_keeps (P := fun filled => filled.size = data.size) ?_ rfl h
  intro k filled filled' hsize hk
  obtain ⟨v, -, hk⟩ := Outcome.bind_eq_ok.1 hk
  unfold write at hk
  split at hk
  · cases hk
    rw [Array.size_setIfInBounds, hsize]
  · cases hk

theorem write_append {done rest : List Single} {u v : Single} :
    write (done ++ u :: rest).toArray done.length v = .ok ((done ++ [v]) ++ rest).toArray := by
  unfold write
  rw [if_pos (by simp), List.setIfInBounds_toArray, List.set_append_right _ _ (Nat.le_refl _),
    Nat.sub_self, List.set_cons_zero, List.append_assoc, List.singleton_append]

/-- From a position on, the loop puts its values behind those in front of the position. -/
theorem foldlM_write (value : Nat → Except Fault Single) (done rest : List Single) :
    (List.range' done.length rest.length).foldlM (fun data k => do
        let v ← value k
        write data k v) (done ++ rest).toArray =
      ((List.range' done.length rest.length).mapM value).map fun vs => (done ++ vs).toArray := by
  induction rest generalizing done with
  | nil => rfl
  | cons u rest ih =>
      rw [List.length_cons, List.range'_succ, List.foldlM_cons, List.mapM_cons]
      cases value done.length with
      | error e => rfl
      | ok v =>
          have hlength : done.length + 1 = (done ++ [v]).length := by simp
          simp only [Outcome.ok_bind]
          rw [write_append, Outcome.ok_bind, hlength, ih]
          cases (List.range' (done ++ [v]).length rest.length).mapM value with
          | error e => rfl
          | ok vs =>
              simp only [Outcome.ok_bind, Outcome.pure_eq, Except.map, List.append_assoc,
                List.singleton_append]

/-- The result holds the outputs in the order of their positions. -/
theorem fill_replicate : fill batch outs rows columns output
      (.replicate (batch * outs * rows * columns) .zero) =
    ((List.range (batch * outs * rows * columns)).mapM fun k =>
      output (k / (columns * rows * outs)) (k / (columns * rows) % outs) (k / columns % rows)
        (k % columns)).map List.toArray := by
  have h := foldlM_write (fun k => output (k / (columns * rows * outs)) (k / (columns * rows) % outs)
    (k / columns % rows) (k % columns)) [] (.replicate (batch * outs * rows * columns) .zero)
  rw [List.length_replicate, List.length_nil, ← List.range_eq_range', List.nil_append,
    List.toArray_replicate] at h
  rw [fill_eq_foldlM, h]
  rfl

end Dataflow.Convolution
