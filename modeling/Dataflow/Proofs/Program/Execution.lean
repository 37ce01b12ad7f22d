import Dataflow.Program.Execution
import Dataflow.Proofs.Outcome

/-!
# Executing operations in order

What one step of an execution does, case by case, and what a whole run does. A run collects the
values that are asked for as it goes along; `runFrom` keeps all values instead, and the values that
are asked for are among them.
-/

namespace Dataflow.Program

open Execution

variable {p : Program} {feed : Dict Tensor} {stop : Option String} {store store' : Store}
  {o : Operation} {os : List Operation} {index : Nat} {cause : ProgramError} {fault : Fault}
  {inputs : List Value} {output : Value}

/-! ## One operation -/

theorem advance_of_error (hx : p.execute feed store o = .error (.error cause)) :
    advance ⟨p, feed, stop, o :: os, index, store⟩ =
      (some (.error (.error cause)), ⟨p, feed, stop, [], index, store⟩) := by
  simp only [advance, hx, ended]

theorem advance_of_fault (hx : p.execute feed store o = .error (.fault fault)) :
    advance ⟨p, feed, stop, o :: os, index, store⟩ =
      (some (.error (.fault fault)), ⟨p, feed, stop, os, index + 1, store⟩) := by
  simp only [advance, hx]

theorem advance_of_ok (hx : p.execute feed store o = .ok (inputs, output)) :
    advance ⟨p, feed, stop, o :: os, index, store⟩ =
      (some (.ok ⟨index, o, inputs, output⟩),
        ⟨p, feed, stop, if stop = some o.name then [] else os, index + 1,
          (o.name, output) :: store⟩) := by
  simp only [advance, hx]

theorem next_of_ended {e : Execution} (h : e.pending = []) : e.next = (none, e) := by
  rw [next, advance, h]

theorem next_of_error (hx : p.execute feed store o = .error (.error cause)) :
    next ⟨p, feed, stop, o :: os, index, store⟩ =
      (some (.error (.error cause)), ⟨p, feed, stop, [], index, store⟩) := by
  rw [next, advance_of_error hx]

theorem next_of_fault (hx : p.execute feed store o = .error (.fault fault)) :
    next ⟨p, feed, stop, o :: os, index, store⟩ =
      (some (.error (.fault fault)), ⟨p, feed, stop, os, index + 1, store⟩) := by
  rw [next, advance_of_fault hx]

theorem next_of_ok {v : Value} (hx : p.execute feed store o = .ok (inputs, output))
    (hv : view o inputs output = .ok v) :
    next ⟨p, feed, stop, o :: os, index, store⟩ =
      (some (.ok ⟨index, o, inputs, output, v⟩),
        ⟨p, feed, stop, if stop = some o.name then [] else os, index + 1,
          (o.name, output) :: store⟩) := by
  rw [next, advance_of_ok hx]
  simp only [hv]

theorem next_of_view_error (hx : p.execute feed store o = .ok (inputs, output))
    (hv : view o inputs output = .error (.error cause)) :
    next ⟨p, feed, stop, o :: os, index, store⟩ =
      (some (.error (.error cause)), ⟨p, feed, stop, [], index + 1, (o.name, output) :: store⟩) := by
  rw [next, advance_of_ok hx]
  simp only [hv, ended]

theorem next_of_view_fault (hx : p.execute feed store o = .ok (inputs, output))
    (hv : view o inputs output = .error (.fault fault)) :
    next ⟨p, feed, stop, o :: os, index, store⟩ =
      (some (.error (.fault fault)), ⟨p, feed, stop, if stop = some o.name then [] else os,
        index + 1, (o.name, output) :: store⟩) := by
  rw [next, advance_of_ok hx]
  simp only [hv]

/-! ## All operations -/

/-- Runs operations in order, up to the first one named `stop`: the values they computed, latest
first. -/
def runFrom (p : Program) (feed : Dict Tensor) (stop : Option String) (store : Store) :
    List Operation → Except (Failure ProgramError) Store
  | [] => .ok store
  | o :: os => do
    let (_, output) ← p.execute feed store o
    let store := (o.name, output) :: store
    if stop = some o.name then return store else p.runFrom feed stop store os

def requested (store : Store) (name : String) : Except (Failure ProgramError) Value :=
  match store.lookup name with
  | some v => .ok v
  | none => Failure.refuse (.notFound name)

/-- What was kept on the way are the values in the store of the names asked for, and the last
value. -/
structure Retains (outputs : List String) (store : Store) (kept : Dict Value × Option Value) :
    Prop where
  values : ∀ name ∈ outputs, kept.1.get? name = store.lookup name
  last : kept.2 = store.head?.map Prod.snd

variable {outputs : List String} {kept : Dict Value} {last : Option Value}

theorem retains_nil (outputs : List String) : Retains outputs [] (.empty, none) where
  values _ _ := rfl
  last := rfl

theorem Retains.push (h : Retains outputs store (kept, last)) (name : String) (v : Value) :
    Retains outputs ((name, v) :: store)
      (if name ∈ outputs then kept.insert name v else kept, some v) where
  values i hi := by
    by_cases hn : i = name
    · subst hn
      rw [if_pos hi, Dict.get?_insert_self, List.lookup_cons_self]
    · rw [List.lookup_cons, beq_false_of_ne hn, ← h.values i hi]
      dsimp only
      split
      · exact Dict.get?_insert_of_ne _ hn v
      · rfl
  last := rfl

theorem collect_of_error {e after : Execution} {f : Failure ProgramError}
    (h : e.advance = (some (.error f), after)) : collect outputs kept last e = .error f := by
  rw [collect]
  split
  · next h' =>
    rw [h] at h'
    cases h'
  · next h' =>
    rw [h] at h'
    cases h'
    rfl
  · next h' =>
    rw [h] at h'
    cases h'

theorem collect_of_ok {e after : Execution} {x : Executed}
    (h : e.advance = (some (.ok x), after)) :
    collect outputs kept last e = collect outputs
      (if x.operation.name ∈ outputs then kept.insert x.operation.name x.output else kept)
      (some x.output) after := by
  rw [collect]
  split
  · next h' =>
    rw [h] at h'
    cases h'
  · next h' =>
    rw [h] at h'
    cases h'
  · next h' =>
    rw [h] at h'
    cases h'
    rfl

theorem collect_of_ended :
    collect outputs kept last ⟨p, feed, stop, [], index, store⟩ = .ok (kept, last) := by
  rw [collect]
  rfl

variable (p feed stop) in
/-- To collect values on the way is to pick them from all values at the end. -/
theorem collect_cases (h : Retains outputs store (kept, last)) (ops : List Operation)
    (index : Nat) :
    (∃ f, p.runFrom feed stop store ops = .error f ∧
        collect outputs kept last ⟨p, feed, stop, ops, index, store⟩ = .error f) ∨
      ∃ store' kept', p.runFrom feed stop store ops = .ok store' ∧
        collect outputs kept last ⟨p, feed, stop, ops, index, store⟩ = .ok kept' ∧
          Retains outputs store' kept' := by
  induction ops generalizing store kept last index with
  | nil => exact Or.inr ⟨store, (kept, last), rfl, collect_of_ended, h⟩
  | cons o os ih =>
      rw [runFrom]
      cases hx : p.execute feed store o with
      | error f =>
          refine Or.inl ⟨f, rfl, ?_⟩
          cases f with
          | error cause => exact collect_of_error (advance_of_error hx)
          | fault fault => exact collect_of_error (advance_of_fault hx)
      | ok r =>
          obtain ⟨inputs, output⟩ := r
          rw [Outcome.ok_bind, collect_of_ok (advance_of_ok hx)]
          dsimp only
          by_cases hs : stop = some o.name
          · rw [if_pos hs, if_pos hs, collect_of_ended]
            exact Or.inr ⟨_, _, rfl, rfl, h.push o.name output⟩
          · rw [if_neg hs, if_neg hs]
            exact ih (h.push o.name output) (index + 1)

/-- A run delivers values of the store that its operations leave. -/
theorem run_eq (p : Program) (feed : Dict Tensor) (outputs : List String) (stop : Option String) :
    p.run feed outputs stop = (do
      let store ← p.runFrom feed stop [] p.operations
      if outputs.isEmpty then return (store.head?.map Prod.snd).toList
      else outputs.mapM (requested store)) := by
  unfold run Execution.start
  rcases collect_cases p feed stop (retains_nil outputs) p.operations 0 with
    ⟨f, hr, hc⟩ | ⟨store, ⟨kept, last⟩, hr, hc, h⟩
  · rw [hr, hc]
    rfl
  · rw [hr, hc, Outcome.ok_bind, Outcome.ok_bind]
    dsimp only
    split
    · rw [← h.last]
    · refine Outcome.mapM_congr fun name hname => ?_
      have hkept : kept.get? name = store.lookup name := h.values name hname
      cases hs : store.lookup name with
      | none => simp only [requested, hkept, hs]
      | some v => simp only [requested, hkept, hs]

end Dataflow.Program
