import Dataflow.Proofs.Program.Sources
import Dataflow.Proofs.Program.Steps

/-!
# What is fed

A program looks for fed tensors under few names only. Lowering lets an operation read a name that no
operation in front produces and that is no parameter only if it is the name of the input node the
operation belongs to. Runs of one program from two feeds that agree on the names of these nodes
therefore go through the same steps, and an input that is not resolved names one of them.

`inputNames` asks for the names of the first operations of these nodes, which may be other names.
Feeding what it asks for is enough exactly if all names that are looked for are among them.
-/

namespace Dataflow

namespace Execution

/-- The answers up to the first fault, which stops whatever was waiting for them. -/
def untilFault : List (Option (Except (Failure ProgramError) Step)) →
    List (Option (Except (Failure ProgramError) Step))
  | [] => []
  | some (.error (.fault fault)) :: _ => [some (.error (.fault fault))]
  | a :: as => a :: untilFault as

/-- What the first `k` calls of `next` answer, or those up to the first fault. -/
def answers (e : Execution) (k : Nat) : List (Option (Except (Failure ProgramError) Step)) :=
  untilFault (e.take k)

end Execution

namespace Program

open Execution

variable {p : Program} {feed feed' : Dict Tensor} {stop : Option String} {store store' : Store}
  {ops front back : List Operation} {o : Operation} {name : String} {nodes : List Node}
  {r : Recipe} {i : String} {seen : List String} {index : Nat} {cause : ProgramError}

/-! ## Names that are looked for among fed tensors -/

def sources (nodes : List Node) (params : Dict Tensor) : List String :=
  (nodes.filter fun n => n.isInput && !params.contains n.name).map Node.name

/-- What the operations read that neither an operation in front nor a parameter supplies; `seen` are
the names produced in front of all of them. -/
def fedReads (params : Dict Tensor) : (seen : List String) → List Operation → List String
  | _, [] => []
  | seen, o :: os =>
    (o.inputs.filter fun i => i ∉ seen && !params.contains i) ++
      fedReads params (o.name :: seen) os

def fedNames (p : Program) : List String := fedReads p.params [] p.operations

theorem mem_sources {params : Dict Tensor} :
    i ∈ sources nodes params ↔
      (∃ n ∈ nodes, n.isInput = true ∧ n.name = i) ∧ params.contains i = false := by
  simp only [sources, List.mem_map, List.mem_filter, Bool.and_eq_true, Bool.not_eq_true']
  constructor
  · rintro ⟨n, ⟨hn, hin, hp⟩, rfl⟩
    exact ⟨⟨n, hn, hin, rfl⟩, hp⟩
  · rintro ⟨⟨n, hn, hin, rfl⟩, hp⟩
    exact ⟨n, ⟨hn, hin, hp⟩, rfl⟩

theorem mem_fedReads {params : Dict Tensor} :
    i ∈ fedReads params seen ops ↔ ∃ front o back, ops = front ++ o :: back ∧ i ∈ o.inputs ∧
      i ∉ seen ∧ i ∉ front.map Operation.name ∧ params.contains i = false := by
  induction ops generalizing seen with
  | nil => simp [fedReads]
  | cons x os ih =>
      rw [fedReads, List.mem_append, List.mem_filter, ih]
      constructor
      · rintro (⟨hi, hs⟩ | ⟨front, o, back, rfl, hi, hs, hf, hp⟩)
        · simp only [Bool.and_eq_true, decide_eq_true_eq, Bool.not_eq_true'] at hs
          exact ⟨[], x, os, rfl, hi, hs.1, by simp, hs.2⟩
        · rw [List.mem_cons, not_or] at hs
          refine ⟨x :: front, o, back, rfl, hi, hs.2, ?_, hp⟩
          rw [List.map_cons, List.mem_cons, not_or]
          exact ⟨hs.1, hf⟩
      · rintro ⟨front, o, back, he, hi, hs, hf, hp⟩
        cases front with
        | nil =>
            obtain ⟨rfl, rfl⟩ := List.cons.inj he
            left
            simp [hi, hs, hp]
        | cons y front =>
            obtain ⟨rfl, rfl⟩ := List.cons.inj he
            rw [List.map_cons, List.mem_cons, not_or] at hf
            right
            refine ⟨front, o, back, rfl, hi, ?_, hf.2, hp⟩
            rw [List.mem_cons, not_or]
            exact ⟨hf.1, hs⟩

theorem exists_stage_split {stages : List Stage}
    (h : stages.flatMap Stage.operations = front ++ o :: back) :
    ∃ T c S front' back', stages = T ++ c :: S ∧ c.operations = front' ++ o :: back' ∧
      front = T.flatMap Stage.operations ++ front' := by
  induction stages generalizing front with
  | nil => simp at h
  | cons s ss ih =>
      rw [List.flatMap_cons] at h
      rcases List.append_eq_append_iff.1 h with ⟨front', rfl, hrest⟩ | ⟨rest, hops, hrest⟩
      · obtain ⟨T, c, S, f, b, rfl, hc, rfl⟩ := ih hrest
        refine ⟨s :: T, c, S, f, b, rfl, hc, ?_⟩
        rw [List.flatMap_cons, List.append_assoc]
      · cases rest with
        | nil =>
            rw [List.append_nil] at hops
            have hlater : ss.flatMap Stage.operations = [] ++ o :: back := hrest.symm
            obtain ⟨T, c, S, f, b, rfl, hc, hf⟩ := ih hlater
            refine ⟨s :: T, c, S, f, b, rfl, hc, ?_⟩
            rw [List.flatMap_cons, List.append_assoc, ← hf, List.append_nil, hops]
        | cons x rest =>
            obtain ⟨rfl, rfl⟩ := List.cons.inj hrest
            exact ⟨[], s, ss, front, rest, rfl, hops, rfl⟩

/-- Lowering sees to it that nothing but the names of its input nodes is looked for. -/
theorem mem_sources_of_read (hl : lower name nodes r = .ok p)
    (hs : p.operations = front ++ o :: back) (hi : i ∈ o.inputs)
    (hf : i ∉ front.map Operation.name) (hp : p.params.contains i = false) :
    i ∈ sources nodes p.params := by
  obtain ⟨T, c, S, front', back', hstages, hc, rfl⟩ := exists_stage_split hs
  rcases readable_of_lower hl hstages hc hi with hprod | hparam | ⟨hin, rfl⟩
  · exact absurd hprod hf
  · rw [hp] at hparam
    cases hparam
  · refine mem_sources.2 ⟨⟨c.node, ?_, hin, rfl⟩, hp⟩
    rw [← map_node_stages hl, hstages]
    exact List.mem_map_of_mem (by simp)

theorem fedNames_subset_sources (hl : lower name nodes r = .ok p) :
    ∀ i ∈ p.fedNames, i ∈ sources nodes p.params := by
  intro i hi
  obtain ⟨front, o, back, hs, hi, -, hf, hp⟩ := mem_fedReads.1 hi
  exact mem_sources_of_read hl hs hi hf hp

/-! ## Two feeds -/

theorem resolve_congr (h : store.lookup i = none → p.params.contains i = false →
    feed.get? i = feed'.get? i) : p.resolve feed store o i = p.resolve feed' store o i := by
  rw [resolve, resolve]
  cases hv : store.lookup i with
  | some v => rfl
  | none =>
      cases ht : p.params.get? i with
      | some t => rfl
      | none =>
          have hp : p.params.contains i = false := by
            rw [Dict.contains, ht]
            rfl
          simp only [h hv hp]

theorem execute_congr (h : ∀ i ∈ o.inputs, p.resolve feed store o i = p.resolve feed' store o i) :
    p.execute feed store o = p.execute feed' store o := by
  rw [execute, execute, Outcome.mapM_congr h]

/-- The operation in front does the same from two feeds that agree on what is looked for. -/
theorem execute_congr_of_fedReads {os : List Operation}
    (hs : ∀ i ∈ seen, (store.lookup i).isSome = true)
    (hf : ∀ i ∈ fedReads p.params seen (o :: os), feed.get? i = feed'.get? i) :
    p.execute feed store o = p.execute feed' store o := by
  refine execute_congr fun i hi => resolve_congr fun hv hp => hf i ?_
  have hseen : i ∉ seen := by
    intro hmem
    have := hs i hmem
    rw [hv] at this
    cases this
  rw [fedReads, List.mem_append, List.mem_filter]
  left
  simp [hi, hseen, hp]

theorem isSome_lookup_cons {v : Value} (hs : ∀ i ∈ seen, (store.lookup i).isSome = true) :
    ∀ i ∈ o.name :: seen, (List.lookup i ((o.name, v) :: store)).isSome = true := by
  intro i hi
  by_cases h : i = o.name
  · simp [h]
  · rw [List.lookup_cons, beq_false_of_ne h]
    exact hs i ((List.mem_cons.1 hi).resolve_left h)

theorem fedReads_of_cons {params : Dict Tensor} {os : List Operation}
    (hi : i ∈ fedReads params (o.name :: seen) os) : i ∈ fedReads params seen (o :: os) := by
  rw [fedReads, List.mem_append]
  exact Or.inr hi

theorem runFrom_congr (hs : ∀ i ∈ seen, (store.lookup i).isSome = true)
    (hf : ∀ i ∈ fedReads p.params seen ops, feed.get? i = feed'.get? i) :
    p.runFrom feed stop store ops = p.runFrom feed' stop store ops := by
  induction ops generalizing seen store with
  | nil => rfl
  | cons o os ih =>
      rw [runFrom, runFrom, execute_congr_of_fedReads hs hf]
      cases p.execute feed' store o with
      | error e => rfl
      | ok x =>
          obtain ⟨inputs, v⟩ := x
          rw [Outcome.ok_bind, Outcome.ok_bind]
          dsimp only
          rw [ih (isSome_lookup_cons hs) fun i hi => hf i (fedReads_of_cons hi)]

/-! ## Answers up to a fault -/

theorem answers_of_ended {e : Execution} (h : e.pending = []) (k : Nat) :
    e.answers k = List.replicate k none := by
  induction k with
  | zero => rfl
  | succ k ih =>
      have hn : e.next = (none, e) := next_of_ended h
      rw [answers, take, hn, untilFault, List.replicate_succ, ← ih]
      · rfl
      · simp

theorem answers_succ (os : List Operation) (k : Nat) :
    answers ⟨p, feed, stop, o :: os, index, store⟩ (k + 1) =
      match p.execute feed store o with
      | .error (.error cause) => some (.error (.error cause)) :: List.replicate k none
      | .error (.fault fault) => [some (.error (.fault fault))]
      | .ok (inputs, output) =>
        match view o inputs output with
        | .error (.error cause) => some (.error (.error cause)) :: List.replicate k none
        | .error (.fault fault) => [some (.error (.fault fault))]
        | .ok view =>
          some (.ok ⟨index, o, inputs, output, view⟩) ::
            answers ⟨p, feed, stop, if stop = some o.name then [] else os, index + 1,
              (o.name, output) :: store⟩ k := by
  cases hx : p.execute feed store o with
  | error e =>
      cases e with
      | error cause =>
          rw [answers, take, next_of_error hx]
          exact congrArg (_ :: ·) (answers_of_ended (e := ⟨p, feed, stop, [], index, store⟩) rfl k)
      | fault fault =>
          rw [answers, take, next_of_fault hx]
          rfl
  | ok x =>
      obtain ⟨inputs, output⟩ := x
      cases hv : view o inputs output with
      | ok view =>
          rw [answers, take, next_of_ok hx hv]
          simp only [hv]
          rfl
      | error e =>
          cases e with
          | error cause =>
              rw [answers, take, next_of_view_error hx hv]
              simp only [hv]
              exact congrArg (_ :: ·) (answers_of_ended (e := ⟨p, feed, stop, [], _, _⟩) rfl k)
          | fault fault =>
              rw [answers, take, next_of_view_fault hx hv]
              simp only [hv]
              rfl

theorem answers_congr (hs : ∀ i ∈ seen, (store.lookup i).isSome = true)
    (hf : ∀ i ∈ fedReads p.params seen ops, feed.get? i = feed'.get? i) (k : Nat) :
    answers ⟨p, feed, stop, ops, index, store⟩ k =
      answers ⟨p, feed', stop, ops, index, store⟩ k := by
  induction k generalizing ops seen store index with
  | zero => rfl
  | succ k ih =>
      cases ops with
      | nil => rw [answers_of_ended rfl, answers_of_ended rfl]
      | cons o os =>
          rw [answers_succ, answers_succ, execute_congr_of_fedReads hs hf]
          split
          · rfl
          · rfl
          · split
            · rfl
            · rfl
            · congr 1
              split
              · rw [answers_of_ended rfl, answers_of_ended rfl]
              · exact ih (isSome_lookup_cons hs) fun i hi => hf i (fedReads_of_cons hi)

/-! ## Operations that a run comes to -/

/-- A run of the operations `ops` comes to `o`, behind the operations `front`, whose values are then
in the store. -/
structure ComesTo (p : Program) (feed : Dict Tensor) (stop : Option String) (store : Store)
    (ops front : List Operation) (o : Operation) (store' : Store) : Prop where
  split : ∃ back, ops = front ++ o :: back
  unstopped : ∀ x ∈ front, stop ≠ some x.name
  ran : p.runFrom feed stop store front = .ok store'

theorem comesTo_head (os : List Operation) : ComesTo p feed stop store (o :: os) [] o store where
  split := ⟨os, rfl⟩
  unstopped := by simp
  ran := rfl

theorem ComesTo.cons {o' : Operation} {inputs : List Value} {v : Value}
    (h : ComesTo p feed stop ((o'.name, v) :: store) ops front o store')
    (hx : p.execute feed store o' = .ok (inputs, v)) (hs : stop ≠ some o'.name) :
    ComesTo p feed stop store (o' :: ops) (o' :: front) o store' where
  split := by
    obtain ⟨back, rfl⟩ := h.split
    exact ⟨back, rfl⟩
  unstopped := by
    rw [List.forall_mem_cons]
    exact ⟨hs, h.unstopped⟩
  ran := by
    rw [runFrom, hx, Outcome.ok_bind]
    dsimp only
    rw [if_neg hs, h.ran]

/-- The operation fails where a run comes to it, on its inputs, in its kernel or in its view. -/
def FailsAt (p : Program) (feed : Dict Tensor) (store : Store) (o : Operation)
    (cause : ProgramError) : Prop :=
  p.execute feed store o = .error (.error cause) ∨
    ∃ inputs output, p.execute feed store o = .ok (inputs, output) ∧
      view o inputs output = .error (.error cause)

theorem exists_failsAt_of_runFrom (h : p.runFrom feed stop store ops = .error (.error cause)) :
    ∃ front o store', ComesTo p feed stop store ops front o store' ∧
      p.FailsAt feed store' o cause := by
  induction ops generalizing store with
  | nil => cases h
  | cons o os ih =>
      rw [runFrom] at h
      rcases Outcome.bind_eq_error.1 h with hx | ⟨⟨inputs, v⟩, hx, h⟩
      · exact ⟨[], o, store, comesTo_head os, Or.inl hx⟩
      · dsimp only at h
        split at h
        · cases h
        · next hs =>
          obtain ⟨front, o', store', hc, hfail⟩ := ih h
          exact ⟨o :: front, o', store', hc.cons hx hs, hfail⟩

theorem exists_failsAt_of_answers {k : Nat}
    (h : some (.error (.error cause)) ∈ answers ⟨p, feed, stop, ops, index, store⟩ k) :
    ∃ front o store', ComesTo p feed stop store ops front o store' ∧
      p.FailsAt feed store' o cause := by
  have hnone : ∀ k, some (.error (.error cause)) ∉
      List.replicate k (none : Option (Except (Failure ProgramError) Step)) := by
    intro k hmem
    cases List.eq_of_mem_replicate hmem
  induction k generalizing ops store index with
  | zero => cases h
  | succ k ih =>
      cases ops with
      | nil =>
          rw [answers_of_ended rfl] at h
          exact absurd h (hnone _)
      | cons o os =>
          rw [answers_succ] at h
          split at h
          · next c hx =>
            rcases List.mem_cons.1 h with he | h
            · cases he
              exact ⟨[], o, store, comesTo_head os, Or.inl hx⟩
            · exact absurd h (hnone _)
          · simp at h
          · next inputs output hx =>
            split at h
            · next c hv =>
              rcases List.mem_cons.1 h with he | h
              · cases he
                exact ⟨[], o, store, comesTo_head os, Or.inr ⟨inputs, output, hx, hv⟩⟩
              · exact absurd h (hnone _)
            · simp at h
            · rcases List.mem_cons.1 h with he | h
              · cases he
              · split at h
                · rw [answers_of_ended rfl] at h
                  exact absurd h (hnone _)
                · next hs =>
                  obtain ⟨front, o', store', hc, hfail⟩ := ih h
                  exact ⟨o :: front, o', store', hc.cons hx hs, hfail⟩

theorem ComesTo.lookup_isSome_iff (h : ComesTo p feed stop [] ops front o store) :
    (store.lookup i).isSome = true ↔ i ∈ front.map Operation.name := by
  have hr := h.ran
  rw [runFrom_of_ne_stop h.unstopped] at hr
  have hk := map_fst_runFrom hr
  rw [List.map_nil, List.append_nil] at hk
  rw [← List.mem_reverse, ← hk, ← not_iff_not, Bool.not_eq_true, Option.isSome_eq_false_iff,
    Option.isNone_iff_eq_none]
  exact Dict.lookup_eq_none_iff_notMem

theorem resolve_eq_error (h : p.resolve feed store o i = .error cause) :
    cause = .unresolvedInput o.name i ∧ store.lookup i = none ∧ p.params.get? i = none ∧
      feed.get? i = none := by
  rw [resolve] at h
  split at h
  · cases h
  · next hs =>
    split at h
    · cases h
    · next hp =>
      split at h
      · cases h
      · next hf =>
        cases h
        exact ⟨rfl, hs, hp, hf⟩

theorem view_eq_error {inputs : List Value} {output : Value}
    (h : view o inputs output = .error (.error cause)) : ∃ m, cause = .kernel o.name m := by
  rw [view] at h
  split at h
  · rcases Outcome.bind_eq_error.1 h with hc | ⟨_, _, h⟩
    · obtain ⟨e, -, he⟩ := Outcome.mapError_eq_error.1 hc
      cases e with
      | error m =>
          cases he
          exact ⟨_, rfl⟩
      | fault fault => cases he
    · cases h
  · cases h

theorem failsAt_cases (h : p.FailsAt feed store o cause) :
    (∃ i ∈ o.inputs, cause = .unresolvedInput o.name i ∧ store.lookup i = none ∧
      p.params.get? i = none ∧ feed.get? i = none) ∨
    (∃ inputs m, o.inputs.mapM (p.resolve feed store o) = .ok inputs ∧
      o.forward inputs = .error (.error m) ∧ cause = .kernel o.name m) ∨
    ∃ inputs output m, p.execute feed store o = .ok (inputs, output) ∧
      view o inputs output = .error (.error cause) ∧ cause = .kernel o.name m := by
  rcases h with hx | ⟨inputs, output, hx, hv⟩
  · rw [execute] at hx
    rcases Outcome.bind_eq_error.1 hx with hi | ⟨inputs, hi, hx⟩
    · obtain ⟨c, hi, he⟩ := Outcome.mapError_eq_error.1 hi
      cases he
      obtain ⟨i, hmem, hr⟩ := Outcome.exists_of_mapM_eq_error hi
      exact Or.inl ⟨i, hmem, resolve_eq_error hr⟩
    · rcases Outcome.bind_eq_error.1 hx with hk | ⟨_, _, hx⟩
      · obtain ⟨e, hf, he⟩ := Outcome.mapError_eq_error.1 hk
        cases e with
        | error m =>
            cases he
            exact Or.inr (Or.inl ⟨inputs, m, Outcome.mapError_eq_ok.1 hi, hf, rfl⟩)
        | fault fault => cases he
      · cases hx
  · obtain ⟨m, hm⟩ := view_eq_error hv
    exact Or.inr (Or.inr ⟨inputs, output, m, hx, hv, hm⟩)

/-! ## Errors of runs -/

/-- Some run of the program from the feed, at once or step by step, ends in the error. -/
def EndsIn (p : Program) (feed : Dict Tensor) (cause : ProgramError) : Prop :=
  (∃ outputs stop, p.run feed outputs stop = .error (.error cause)) ∨
    ∃ stop k, some (.error (.error cause)) ∈ (start p feed stop).answers k

/-- A run ends in an error because an operation fails, or because a requested name has no value. -/
theorem failsAt_of_endsIn (h : p.EndsIn feed cause) :
    (∃ stop front o store, ComesTo p feed stop [] p.operations front o store ∧
      p.FailsAt feed store o cause) ∨ ∃ name, cause = .notFound name := by
  rcases h with ⟨outputs, stop, h⟩ | ⟨stop, k, h⟩
  · rw [run_eq] at h
    rcases Outcome.bind_eq_error.1 h with hr | ⟨store, -, h⟩
    · obtain ⟨front, o, store, hc, hfail⟩ := exists_failsAt_of_runFrom hr
      exact Or.inl ⟨stop, front, o, store, hc, hfail⟩
    · right
      split at h
      · cases h
      · obtain ⟨name, -, hq⟩ := Outcome.exists_of_mapM_eq_error h
        rw [requested] at hq
        split at hq
        · cases hq
        · cases hq
          exact ⟨name, rfl⟩
  · obtain ⟨front, o, store, hc, hfail⟩ := exists_failsAt_of_answers h
    exact Or.inl ⟨stop, front, o, store, hc, hfail⟩

/-- An input is not resolved only if it is one of the names that are looked for and is not fed. -/
theorem mem_fedNames_of_endsIn {t : String} (h : p.EndsIn feed (.unresolvedInput name t)) :
    t ∈ p.fedNames ∧ feed.get? t = none := by
  rcases failsAt_of_endsIn h with ⟨stop, front, o, store, hc, hfail⟩ | ⟨_, he⟩
  · rcases failsAt_cases hfail with ⟨i, hi, he, hs, hp, hf⟩ | ⟨_, _, -, -, he⟩ | ⟨_, _, _, -, -, he⟩
    · obtain ⟨rfl, rfl⟩ := ProgramError.unresolvedInput.inj he
      refine ⟨?_, hf⟩
      obtain ⟨back, hsplit⟩ := hc.split
      refine mem_fedReads.2 ⟨front, o, back, hsplit, hi, by simp, ?_, ?_⟩
      · rw [← hc.lookup_isSome_iff, hs]
        simp
      · rw [Dict.contains, hp]
        rfl
    · cases he
    · cases he
  · cases he

/-! ## Sources decide a run -/

/-- Runs from two feeds that agree on the names of the input nodes that are no parameters are the
same, at once and step by step. An operation that a run comes to reads, under each of its inputs, a
computed value or a parameter, whatever is fed, or else the input is the name of such a node. An
input that is not resolved is the name of such a node, and is not fed. -/
theorem run_congr_of_sources (hl : lower name nodes r = .ok p) :
    (∀ feed feed' : Dict Tensor,
      (∀ i ∈ sources nodes r.params, feed.get? i = feed'.get? i) →
        (∀ outputs stop, p.run feed outputs stop = p.run feed' outputs stop) ∧
          ∀ stop k, (start p feed stop).answers k = (start p feed' stop).answers k) ∧
    (∀ feed stop front o store, ComesTo p feed stop [] p.operations front o store →
      ∀ i ∈ o.inputs,
        (∃ v, store.lookup i = some v ∧ ∀ feed', p.resolve feed' store o i = .ok v) ∨
        (store.lookup i = none ∧ ∃ t, r.params.get? i = some t ∧
          ∀ feed', p.resolve feed' store o i = .ok (.tensor t)) ∨
        (store.lookup i = none ∧ i ∈ sources nodes r.params)) ∧
    ∀ feed o i, p.EndsIn feed (.unresolvedInput o i) →
      i ∈ sources nodes r.params ∧ feed.get? i = none := by
  rw [← (lower_eq_ok hl).1]
  refine ⟨fun feed feed' hf => ?_, ?_, fun feed o i h => ?_⟩
  · have hreads : ∀ i ∈ fedReads p.params [] p.operations, feed.get? i = feed'.get? i :=
      fun i hi => hf i (fedNames_subset_sources hl i hi)
    refine ⟨fun outputs stop => ?_, fun stop k => answers_congr (by simp) hreads k⟩
    rw [run_eq, run_eq, runFrom_congr (by simp) hreads]
  · intro feed stop front o store hc i hi
    cases hs : store.lookup i with
    | some v => exact Or.inl ⟨v, rfl, fun feed' => by rw [resolve, hs]⟩
    | none =>
        right
        cases hp : p.params.get? i with
        | some t => exact Or.inl ⟨rfl, t, rfl, fun feed' => by rw [resolve, hs, hp]⟩
        | none =>
            right
            obtain ⟨back, hsplit⟩ := hc.split
            refine ⟨rfl, mem_sources_of_read hl hsplit hi ?_ ?_⟩
            · rw [← hc.lookup_isSome_iff, hs]
              simp
            · rw [Dict.contains, hp]
              rfl
  · obtain ⟨hi, hnone⟩ := mem_fedNames_of_endsIn h
    exact ⟨fedNames_subset_sources hl i hi, hnone⟩

/-- One addend is a parameter, and both feeds hold tensors under its name and under that of the
sum. -/
theorem run_addends_congr : ∃ (feed feed' params : Dict Tensor) (p : Program),
    lower "sum" Cpu.addends ⟨"cpu", Cpu.table, params, openBatch⟩ = .ok p ∧
      feed.get? "y" ≠ feed'.get? "y" ∧ feed.get? "sum" ≠ feed'.get? "sum" ∧
        (∀ i ∈ sources Cpu.addends params, feed.get? i = feed'.get? i) ∧
          p.run feed ["sum"] none = .ok [.tensor ⟨[1], [⟨0x40400000⟩]⟩] ∧
            p.run feed' ["sum"] none = .ok [.tensor ⟨[1], [⟨0x40400000⟩]⟩] ∧
              (start p feed none).answers 4 = (start p feed' none).answers 4 := by
  let params : Dict Tensor := ⟨[("y", ⟨[1], [⟨0x40000000⟩]⟩)]⟩
  let feed : Dict Tensor := ⟨[("x", ⟨[1], [⟨0x3F800000⟩]⟩), ("y", ⟨[1], [⟨7⟩]⟩)]⟩
  let feed' : Dict Tensor := ⟨[("sum", ⟨[1], [⟨9⟩]⟩), ("x", ⟨[1], [⟨0x3F800000⟩]⟩)]⟩
  have hrun : (lower "sum" Cpu.addends ⟨"cpu", Cpu.table, params, openBatch⟩).map
      (fun p => p.run feed ["sum"] none) =
        .ok (.ok [.tensor ⟨[1], [⟨0x40400000⟩]⟩]) := by decide +kernel
  obtain ⟨p, hl, hr⟩ := Outcome.map_eq_ok.1 hrun
  have hf : ∀ i ∈ sources Cpu.addends params, feed.get? i = feed'.get? i := by decide +kernel
  obtain ⟨hruns, hanswers⟩ := (run_congr_of_sources hl).1 feed feed' hf
  refine ⟨feed, feed', params, p, hl, by decide +kernel, by decide +kernel, hf, hr, ?_, ?_⟩
  · rw [← hruns, hr]
  · exact hanswers none 4

/-! ## Feeding what is asked for -/

/-- Whatever else is fed, no run of the program lacks an input when the names are fed. -/
def FedBy (p : Program) (names : List String) : Prop :=
  ∀ feed : Dict Tensor, (∀ i ∈ names, feed.contains i = true) →
    ∀ o i, ¬p.EndsIn feed (.unresolvedInput o i)

theorem fedBy_of_subset {names : List String} (h : ∀ i ∈ p.fedNames, i ∈ names) :
    p.FedBy names := by
  intro feed hfeed o i hend
  obtain ⟨hi, hnone⟩ := mem_fedNames_of_endsIn hend
  have hc := hfeed i (h i hi)
  rw [Dict.contains, hnone] at hc
  cases hc

theorem fedNames_subset_inputNames (hl : lower name nodes r = .ok p)
    (hfirst : ∀ s ∈ p.stages, s.node.isInput = true → p.params.contains s.node.name = false →
      s.first.name = s.node.name) : ∀ i ∈ p.fedNames, i ∈ p.inputNames := by
  intro i hi
  obtain ⟨⟨n, hn, hin, rfl⟩, hp⟩ := mem_sources.1 (fedNames_subset_sources hl i hi)
  rw [← map_node_stages hl] at hn
  obtain ⟨s, hs, rfl⟩ := List.mem_map.1 hn
  rw [← hfirst s hs hin hp, inputNames, inputs, List.map_map]
  refine List.mem_map_of_mem (f := Operation.name ∘ Stage.first) (List.mem_filter.2 ⟨hs, ?_⟩)
  rw [hin, hp]
  rfl

theorem runFrom_append (front back : List Operation) :
    p.runFrom feed none store (front ++ back) =
      p.runFrom feed none store front >>= fun store => p.runFrom feed none store back := by
  induction front generalizing store with
  | nil => rfl
  | cons o os ih =>
      rw [List.cons_append, runFrom, runFrom]
      cases p.execute feed store o with
      | error e => rfl
      | ok x =>
          rw [Outcome.ok_bind, Outcome.ok_bind]
          exact ih

theorem execute_of_unsupplied (hi : i ∈ o.inputs) (hs : store.lookup i = none)
    (hp : p.params.get? i = none) (hf : feed.get? i = none) :
    ∃ t, p.execute feed store o = .error (.error (.unresolvedInput o.name t)) := by
  have hr : p.resolve feed store o i = .error (.unresolvedInput o.name i) := by
    rw [resolve, hs, hp, hf]
  cases hm : o.inputs.mapM (p.resolve feed store o) with
  | ok values =>
      obtain ⟨v, -, hv⟩ := Outcome.exists_right_of_mem (Outcome.mapM_eq_ok.1 hm) hi
      rw [hr] at hv
      cases hv
  | error cause =>
      -- the first input that is missing may be another one
      obtain ⟨t, -, ht⟩ := Outcome.exists_of_mapM_eq_error hm
      refine ⟨t, ?_⟩
      rw [execute, hm, (resolve_eq_error ht).1]
      rfl

theorem run_of_unfed (hi : i ∈ p.fedNames) (hf : feed.get? i = none) :
    ∃ front o back, p.operations = front ++ o :: back ∧ ∀ store,
      p.runFrom feed none [] front = .ok store → ∀ outputs, ∃ t,
        p.run feed outputs none = .error (.error (.unresolvedInput o.name t)) := by
  obtain ⟨front, o, back, hsplit, hi, -, hfront, hp⟩ := mem_fedReads.1 hi
  refine ⟨front, o, back, hsplit, fun store hr outputs => ?_⟩
  have hc : ComesTo p feed none [] p.operations front o store := ⟨⟨back, hsplit⟩, by simp, hr⟩
  have hs : store.lookup i = none := by
    rwa [← hc.lookup_isSome_iff, Bool.not_eq_true, Option.isSome_eq_false_iff,
      Option.isNone_iff_eq_none] at hfront
  have hp : p.params.get? i = none := by
    rwa [Dict.contains, Option.isSome_eq_false_iff, Option.isNone_iff_eq_none] at hp
  obtain ⟨t, ht⟩ := execute_of_unsupplied hi hs hp hf
  refine ⟨t, ?_⟩
  rw [run_eq, hsplit, runFrom_append, hr, Outcome.ok_bind, runFrom, ht]
  rfl

/-- What is looked for are names of input nodes that are no parameters. Feeding what the program asks
for is enough if these names are asked for, as they are when the first operation of each of these
nodes bears the name of its node. A run whose feed lacks one of them does not get past the operation
that looks for it. -/
theorem fedBy_inputNames (hl : lower name nodes r = .ok p) :
    (∀ i ∈ p.fedNames, i ∈ sources nodes r.params) ∧
    ((∀ i ∈ p.fedNames, i ∈ p.inputNames) → p.FedBy p.inputNames) ∧
    ((∀ s ∈ p.stages, s.node.isInput = true → r.params.contains s.node.name = false →
      s.first.name = s.node.name) → ∀ i ∈ p.fedNames, i ∈ p.inputNames) ∧
    ∀ feed : Dict Tensor, ∀ i ∈ p.fedNames, feed.get? i = none →
      ∃ front o back, p.operations = front ++ o :: back ∧ ∀ store,
        p.runFrom feed none [] front = .ok store → ∀ outputs, ∃ t,
          p.run feed outputs none = .error (.error (.unresolvedInput o.name t)) := by
  rw [← (lower_eq_ok hl).1]
  exact ⟨fedNames_subset_sources hl, fedBy_of_subset, fedNames_subset_inputNames hl,
    fun feed i hi hf => run_of_unfed hi hf⟩

def passOn : List Value → Except (Failure String) Value
  | v :: _ => .ok v
  | [] => Failure.refuse "no inputs"

/-- Lowers an input node to an operation that takes up what is fed and one that hands it on, named
after the node in the given ways. -/
def staged (taken handed : String → String) : Lowering := fun n _ _ _ =>
  .ok [
    { name := taken n.name, opType := "Input", inputs := [n.name], shape := n.shapes,
      forward := passOn },
    { name := handed n.name, opType := "Input", inputs := [taken n.name], shape := n.shapes,
      forward := passOn }]

def stagedRecipe (taken handed : String → String) : Recipe :=
  ⟨"cpu", DispatchTable.empty.register "Input" (staged taken handed), .empty, openBatch⟩

def stagedNodes : List Node := [{ name := "x", types := ["Input"], shapes := .tensor ⟨[1]⟩ }]

/-- The first operation bears the name of the node, under which it is fed. -/
theorem fedBy_staged : ∃ p,
    lower "staged" stagedNodes (stagedRecipe id (· ++ "_copy")) = .ok p ∧
      p.inputNames = ["x"] ∧ p.fedNames = ["x"] ∧ p.FedBy p.inputNames := by
  obtain ⟨p, hl, hinputs, hfed⟩ : ∃ p,
      lower "staged" stagedNodes (stagedRecipe id (· ++ "_copy")) = .ok p ∧
        p.inputNames = ["x"] ∧ p.fedNames = ["x"] := ⟨_, rfl, rfl, rfl⟩
  refine ⟨p, hl, hinputs, hfed, (fedBy_inputNames hl).2.1 ?_⟩
  rw [hinputs, hfed]
  exact fun i hi => hi

/-- The first operation is asked for under its own name, and looks for the name of the node. -/
theorem not_fedBy_staged : ∃ p,
    lower "staged" stagedNodes (stagedRecipe (· ++ "_raw") id) = .ok p ∧
      p.inputNames = ["x_raw"] ∧ p.fedNames = ["x"] ∧ ¬p.FedBy p.inputNames := by
  let feed : Dict Tensor := ⟨[("x_raw", ⟨[1], [⟨0x40A00000⟩]⟩)]⟩
  obtain ⟨p, hl, hinputs, hfed, hrun⟩ : ∃ p,
      lower "staged" stagedNodes (stagedRecipe (· ++ "_raw") id) = .ok p ∧
        p.inputNames = ["x_raw"] ∧ p.fedNames = ["x"] ∧
          p.run feed ["x"] none = .error (.error (.unresolvedInput "x_raw" "x")) :=
    ⟨_, rfl, rfl, rfl, by decide +kernel⟩
  refine ⟨p, hl, hinputs, hfed, fun h => h feed ?_ "x_raw" "x" (Or.inl ⟨["x"], none, hrun⟩)⟩
  rw [hinputs]
  decide

end Program

end Dataflow
