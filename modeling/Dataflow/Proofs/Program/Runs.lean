import Dataflow.Proofs.Dict
import Dataflow.Proofs.Program.Execution

/-!
# Runs as equations

In a program without parameters whose operations have distinct names and read only their own names
and earlier ones, the order of a run leaves no trace in its result. The values that a run computes
are a solution of one equation per operation, and any solution of the equations is what a run
computes. Two programs can thus be compared operation by operation, whatever their order.
-/

namespace Dataflow.Program

variable {p : Program} {feed : Dict Tensor} {env : String → Option Value} {store : Store}
  {seen : List String} {o : Operation} {ops : List Operation}

/-! ## Equations -/

abbrev valueOf (store : Store) (name : String) : Option Value := store.lookup name

/-- What the operation `o` reads under the name `i`, when the other operations compute `env`: its
own name stands for a fed tensor. -/
def inputOf (feed : Dict Tensor) (env : String → Option Value) (o : Operation) (i : String) :
    Option Value :=
  if i = o.name then (feed.get? i).map .tensor else env i

/-- The values `env` obey the equation of the operation `o`. -/
def Settles (feed : Dict Tensor) (env : String → Option Value) (o : Operation) : Prop :=
  ∃ inputs v, List.Forall₂ (fun i x => inputOf feed env o i = some x) o.inputs inputs ∧
    o.forward inputs = .ok v ∧ env o.name = some v

/-- The equation of an operation is about the names it reads and its own. -/
theorem Settles.congr {feed' : Dict Tensor} {env' : String → Option Value}
    (h : Settles feed env o)
    (hi : ∀ i ∈ o.inputs, inputOf feed' env' o i = inputOf feed env o i)
    (ho : env' o.name = env o.name) : Settles feed' env' o := by
  obtain ⟨inputs, v, hin, hf, hv⟩ := h
  refine ⟨inputs, v, ?_, hf, ho.trans hv⟩
  exact ((List.forall₂_and_left _ _).2 ⟨hi, hin⟩).imp fun i x hx => hx.1.trans hx.2

/-- The operations have distinct names that were not seen before, and read only names seen before
them and their own. -/
def Scoped : (seen : List String) → List Operation → Prop
  | _, [] => True
  | seen, o :: os =>
    o.name ∉ seen ∧ (∀ i ∈ o.inputs, i ∈ seen ∨ i = o.name) ∧ Scoped (o.name :: seen) os

/-- The store holds the values that `env` has for the names seen, and no others. -/
structure Agrees (seen : List String) (store : Store) (env : String → Option Value) : Prop where
  computed : ∀ i ∈ seen, ∃ v, store.lookup i = some v ∧ env i = some v
  missing : ∀ i, i ∉ seen → store.lookup i = none

theorem agrees_nil : Agrees [] [] env where
  computed i hi := by cases hi
  missing i _ := rfl

theorem agrees_valueOf (hk : ∀ i, i ∈ seen ↔ (store.lookup i).isSome = true) :
    Agrees seen store (valueOf store) where
  computed i hi := by
    obtain ⟨v, hv⟩ := Option.isSome_iff_exists.1 ((hk i).1 hi)
    exact ⟨v, hv, hv⟩
  missing i hi := by
    rwa [hk, Bool.not_eq_true, Option.isSome_eq_false_iff, Option.isNone_iff_eq_none] at hi

theorem Agrees.push (ha : Agrees seen store env) {name : String} {v : Value}
    (hv : env name = some v) : Agrees (name :: seen) ((name, v) :: store) env where
  computed i hi := by
    by_cases h : i = name
    · subst h
      exact ⟨v, List.lookup_cons_self, hv⟩
    · rw [List.lookup_cons, beq_false_of_ne h]
      exact ha.computed i ((List.mem_cons.1 hi).resolve_left h)
  missing i hi := by
    rw [List.mem_cons, not_or] at hi
    rw [List.lookup_cons, beq_false_of_ne hi.1]
    exact ha.missing i hi.2

/-! ## One operation -/

theorem resolve_eq_ok (hp : p.params = .empty) (ha : Agrees seen store env)
    (ho : o.name ∉ seen) {i : String} (hi : i ∈ seen ∨ i = o.name) {v : Value} :
    p.resolve feed store o i = .ok v ↔ inputOf feed env o i = some v := by
  by_cases h : i = o.name
  · subst h
    rw [resolve, ha.missing _ ho, hp, Dict.get?_empty, inputOf, if_pos rfl]
    cases feed.get? o.name <;> simp
  · obtain ⟨w, hw, he⟩ := ha.computed i (hi.resolve_right h)
    rw [resolve, hw, inputOf, if_neg h, he]
    simp

theorem execute_eq_ok {inputs : List Value} {v : Value} :
    p.execute feed store o = .ok (inputs, v) ↔
      o.inputs.mapM (p.resolve feed store o) = .ok inputs ∧ o.forward inputs = .ok v := by
  unfold execute
  simp only [Outcome.bind_eq_ok, Outcome.mapError_eq_ok]
  constructor
  · rintro ⟨_, hi, _, hv, hx⟩
    cases hx
    exact ⟨hi, hv⟩
  · rintro ⟨hi, hv⟩
    exact ⟨inputs, hi, v, hv, rfl⟩

/-- Executing an operation amounts to reading its inputs off the values computed. -/
theorem execute_eq_ok_of_agrees (hp : p.params = .empty) (ha : Agrees seen store env)
    (ho : o.name ∉ seen) (hi : ∀ i ∈ o.inputs, i ∈ seen ∨ i = o.name) {inputs : List Value}
    {v : Value} :
    p.execute feed store o = .ok (inputs, v) ↔
      List.Forall₂ (fun i x => inputOf feed env o i = some x) o.inputs inputs ∧
        o.forward inputs = .ok v := by
  rw [execute_eq_ok, Outcome.mapM_eq_ok]
  refine and_congr_left fun _ => ⟨fun h => ?_, fun h => ?_⟩
  · exact ((List.forall₂_and_left _ _).2 ⟨hi, h⟩).imp
      fun i x hx => (resolve_eq_ok hp ha ho hx.1).1 hx.2
  · exact ((List.forall₂_and_left _ _).2 ⟨hi, h⟩).imp
      fun i x hx => (resolve_eq_ok hp ha ho hx.1).2 hx.2

/-! ## All operations -/

/-- A run that comes to its end computes values that obey the equations. -/
theorem settles_of_runFrom (hp : p.params = .empty) {store' : Store}
    (hs : Scoped seen ops) (hk : ∀ i, i ∈ seen ↔ (store.lookup i).isSome = true)
    (hr : p.runFrom feed none store ops = .ok store') :
    Agrees seen store (valueOf store') ∧ (∀ o ∈ ops, Settles feed (valueOf store') o) ∧
      Agrees ((ops.map Operation.name).reverse ++ seen) store' (valueOf store') := by
  induction ops generalizing seen store with
  | nil =>
      cases hr
      exact ⟨agrees_valueOf hk, by simp, agrees_valueOf hk⟩
  | cons o os ih =>
      obtain ⟨ho, hi, hos⟩ := hs
      rw [runFrom] at hr
      obtain ⟨⟨inputs, v⟩, he, hr⟩ := Outcome.bind_eq_ok.1 hr
      dsimp only at hr
      rw [if_neg (by simp)] at hr
      have hk' : ∀ i, i ∈ o.name :: seen ↔
          (List.lookup i ((o.name, v) :: store)).isSome = true := by
        intro i
        by_cases h : i = o.name
        · simp [h]
        · rw [List.lookup_cons, beq_false_of_ne h, ← hk, List.mem_cons]
          simp [h]
      obtain ⟨ha', hset, hfin⟩ := ih hos hk' hr
      have ha : Agrees seen store (valueOf store') := by
        refine ⟨fun i hi => ?_, fun i hi => ?_⟩
        · obtain ⟨w, hw, hw'⟩ := ha'.computed i (List.mem_cons_of_mem _ hi)
          have hne : i ≠ o.name := fun h => ho (h ▸ hi)
          rw [List.lookup_cons, beq_false_of_ne hne] at hw
          exact ⟨w, hw, hw'⟩
        · exact (agrees_valueOf hk).missing i hi
      have hv : valueOf store' o.name = some v := by
        obtain ⟨w, hw, hw'⟩ := ha'.computed o.name List.mem_cons_self
        rw [List.lookup_cons_self] at hw
        rw [hw', ← hw]
      obtain ⟨hin, hf⟩ := (execute_eq_ok_of_agrees hp ha ho hi).1 he
      refine ⟨ha, ?_, ?_⟩
      · rw [List.forall_mem_cons]
        exact ⟨⟨inputs, v, hin, hf, hv⟩, hset⟩
      · rw [List.map_cons, List.reverse_cons, List.append_assoc]
        exact hfin

/-- Values that obey the equations are what a run computes, which therefore comes to its end. -/
theorem runFrom_of_settles (hp : p.params = .empty) (hs : Scoped seen ops)
    (ha : Agrees seen store env) (hset : ∀ o ∈ ops, Settles feed env o) :
    ∃ store', p.runFrom feed none store ops = .ok store' ∧
      Agrees ((ops.map Operation.name).reverse ++ seen) store' env := by
  induction ops generalizing seen store with
  | nil => exact ⟨store, rfl, ha⟩
  | cons o os ih =>
      obtain ⟨ho, hi, hos⟩ := hs
      rw [List.forall_mem_cons] at hset
      obtain ⟨⟨inputs, v, hin, hf, hv⟩, hset⟩ := hset
      obtain ⟨store', hr, ha'⟩ := ih hos (ha.push hv) hset
      refine ⟨store', ?_, ?_⟩
      · rw [runFrom, (execute_eq_ok_of_agrees hp ha ho hi).2 ⟨hin, hf⟩, Outcome.ok_bind]
        dsimp only
        rw [if_neg (by simp)]
        exact hr
      · rw [List.map_cons, List.reverse_cons, List.append_assoc]
        exact ha'

theorem map_fst_runFrom {store' : Store} (hr : p.runFrom feed none store ops = .ok store') :
    store'.map Prod.fst = (ops.map Operation.name).reverse ++ store.map Prod.fst := by
  induction ops generalizing store with
  | nil =>
      cases hr
      rfl
  | cons o os ih =>
      rw [runFrom] at hr
      obtain ⟨⟨inputs, v⟩, -, hr⟩ := Outcome.bind_eq_ok.1 hr
      rw [ih hr, List.map_cons, List.map_cons, List.reverse_cons, List.append_assoc,
        List.singleton_append]

theorem runFrom_of_ne_stop {stop : Option String} (h : ∀ o ∈ ops, stop ≠ some o.name) :
    p.runFrom feed stop store ops = p.runFrom feed none store ops := by
  induction ops generalizing store with
  | nil => rfl
  | cons o os ih =>
      rw [List.forall_mem_cons] at h
      rw [runFrom, runFrom]
      cases p.execute feed store o with
      | error e => rfl
      | ok x =>
          rw [Outcome.ok_bind, Outcome.ok_bind]
          dsimp only
          rw [if_neg h.1, if_neg (by simp), ih h.2]

/-! ## Parameters -/

def supplied (params feed : Dict Tensor) : Dict Tensor := ⟨params.entries ++ feed.entries⟩

theorem supplied_get? (params feed : Dict Tensor) (name : String) :
    (supplied params feed).get? name = (params.get? name <|> feed.get? name) := by
  rw [Dict.get?, supplied, List.lookup_append, Dict.get?]
  cases params.entries.lookup name <;> rfl

/-- Parameters are tensors that are always fed. -/
theorem resolve_supplied (p : Program) (feed : Dict Tensor) (store : Store) (o : Operation) :
    p.resolve feed store o =
      ({ p with params := .empty } : Program).resolve (supplied p.params feed) store o := by
  funext i
  simp only [resolve, supplied_get?, Dict.get?_empty]
  cases p.params.get? i <;> rfl

theorem runFrom_supplied (p : Program) (feed : Dict Tensor) (stop : Option String) (store : Store)
    (ops : List Operation) :
    p.runFrom feed stop store ops =
      ({ p with params := .empty } : Program).runFrom (supplied p.params feed) stop store ops := by
  induction ops generalizing store with
  | nil => rfl
  | cons o os ih =>
      rw [runFrom, execute, resolve_supplied p]
      simp only [ih]
      rfl

/-! ## Requests -/

theorem requested_eq_ok {name : String} {v : Value} :
    requested store name = .ok v ↔ store.lookup name = some v := by
  rw [requested]
  cases store.lookup name with
  | none => simp [Failure.refuse]
  | some w => simp

theorem run_eq_ok (hr : p.runFrom feed none [] p.operations = .ok store)
    {outputs : List String} (hne : outputs ≠ []) {values : List Value} :
    p.run feed outputs none = .ok values ↔
      List.Forall₂ (fun name v => store.lookup name = some v) outputs values := by
  have he : outputs.isEmpty = false := by simpa using hne
  have hreq : ∀ name v, requested store name = .ok v ↔ store.lookup name = some v :=
    fun name v => requested_eq_ok
  rw [run_eq, hr, Outcome.ok_bind]
  simp only [he, Bool.false_eq_true, if_false, Outcome.mapM_eq_ok, hreq]

theorem exists_runFrom_of_run {outputs : List String} {values : List Value}
    (hr : p.run feed outputs none = .ok values) :
    ∃ store, p.runFrom feed none [] p.operations = .ok store := by
  rw [run_eq] at hr
  obtain ⟨store, hs, -⟩ := Outcome.bind_eq_ok.1 hr
  exact ⟨store, hs⟩

end Dataflow.Program
