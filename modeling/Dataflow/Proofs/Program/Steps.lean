import Dataflow.Proofs.Cpu.Evaluation

/-!
# Runs step by step

A run and an execution that is asked for one step at a time go through the same operations, up to
the stop operation or to the first one that fails. `Trace` relates the operations to the steps they
take, independently of either. The answers of the execution and the result of the run can both be
read off a trace.

The execution also computes what calibration looks at, which may fail where the run does not. The
reference backend does not fail there, since the view of a convolution is a part of its value.
-/

namespace Dataflow.Program

/-! ## Traces -/

/-- The operations up to and including the first one named `stop`; all of them if there is none. -/
def upTo (stop : Option String) : List Operation → List Operation
  | [] => []
  | o :: os => if stop = some o.name then [o] else o :: upTo stop os

/-- The operations, executed in order, take the steps, up to the failure of one if there is one. -/
inductive Trace (p : Program) (feed : Dict Tensor) : (index : Nat) → Store → List Operation →
    List Step → Option (Failure ProgramError) → Prop
  | done {index store} : Trace p feed index store [] [] none
  | failed {index store o os e} (hx : p.execute feed store o = .error e) :
      Trace p feed index store (o :: os) [] (some e)
  | step {index store o os inputs output view steps failure?}
      (hx : p.execute feed store o = .ok (inputs, output))
      (hv : Execution.view o inputs output = .ok view)
      (ht : Trace p feed (index + 1) ((o.name, output) :: store) os steps failure?) :
      Trace p feed index store (o :: os) (⟨index, o, inputs, output, view⟩ :: steps) failure?

def ViewsSucceed (p : Program) (feed : Dict Tensor) : (store : Store) → List Operation → Prop
  | _, [] => True
  | store, o :: os => ∀ inputs output, p.execute feed store o = .ok (inputs, output) →
      (∃ view, Execution.view o inputs output = .ok view) ∧
        ViewsSucceed p feed ((o.name, output) :: store) os

variable {p : Program} {feed : Dict Tensor} {stop : Option String} {store : Store}
  {ops : List Operation} {index : Nat} {steps : List Step}
  {failure? : Option (Failure ProgramError)} {o : Operation}

theorem upTo_cons (stop : Option String) (o : Operation) (os : List Operation) :
    upTo stop (o :: os) = o :: if stop = some o.name then [] else upTo stop os := by
  rw [upTo]
  split <;> rfl

theorem mem_of_mem_upTo (h : o ∈ upTo stop ops) : o ∈ ops := by
  induction ops with
  | nil => cases h
  | cons o' os ih =>
      rw [upTo_cons] at h
      rcases List.mem_cons.1 h with rfl | h
      · exact List.mem_cons_self
      · split at h
        · cases h
        · exact List.mem_cons_of_mem _ (ih h)

theorem exists_trace (hv : p.ViewsSucceed feed store ops) (index : Nat) :
    ∃ steps failure?, p.Trace feed index store ops steps failure? := by
  induction ops generalizing store index with
  | nil => exact ⟨[], none, .done⟩
  | cons o os ih =>
      cases hx : p.execute feed store o with
      | error e => exact ⟨[], some e, .failed hx⟩
      | ok r =>
          obtain ⟨inputs, output⟩ := r
          obtain ⟨⟨view, hview⟩, hrest⟩ := hv inputs output hx
          obtain ⟨steps, failure?, ht⟩ := ih hrest (index + 1)
          exact ⟨_, failure?, .step hx hview ht⟩

theorem Trace.map_index (h : p.Trace feed index store ops steps failure?) :
    steps.map Step.index = List.range' index steps.length := by
  induction h with
  | done => rfl
  | failed => rfl
  | step _ _ _ ih => rw [List.map_cons, ih, List.length_cons, List.range'_succ]

/-- The steps are those of the first operations, of all of them if none fails. -/
theorem Trace.map_operation (h : p.Trace feed index store ops steps failure?) :
    steps.map Step.operation <+: ops ∧ (failure? = none → steps.map Step.operation = ops) := by
  induction h with
  | done => exact ⟨List.prefix_rfl, fun _ => rfl⟩
  | failed => exact ⟨List.nil_prefix, fun h => by cases h⟩
  | step _ _ _ ih =>
      rw [List.map_cons]
      exact ⟨List.cons_prefix_cons.2 ⟨rfl, ih.1⟩, fun h => by rw [ih.2 h]⟩

/-! ## Answers -/

/-- The answers of an execution that takes the steps and ends with the failure, if there is one. -/
def items (steps : List Step) (failure? : Option (Failure ProgramError)) :
    List (Except (Failure ProgramError) Step) :=
  steps.map .ok ++ failure?.toList.map .error

theorem take_succ {e e' : Execution} {xs : List (Except (Failure ProgramError) Step)} {k : Nat}
    (hn : e.next = (xs[0]?, e')) (ht : e'.take k = (List.range k).map fun i => xs[i + 1]?) :
    e.take (k + 1) = (List.range (k + 1)).map fun i => xs[i]? := by
  rw [Execution.take, hn, ht, List.range_succ_eq_map, List.map_cons, List.map_map]
  rfl

theorem take_of_ended {e : Execution} (h : e.pending = []) (k : Nat) :
    e.take k = (List.range k).map fun i => (items [] none)[i]? := by
  induction k with
  | zero => rfl
  | succ k ih =>
      have hn : e.next = (none, e) := next_of_ended h
      exact take_succ hn ih

/-- An execution answers with the items of its trace, and with nothing after them. A fault is no
answer, so nothing is said about what comes after one. -/
theorem Trace.take (h : p.Trace feed index store (upTo stop ops) steps failure?) (k : Nat)
    (hk : ∀ f, failure? = some (.fault f) → k ≤ steps.length + 1) :
    Execution.take k ⟨p, feed, stop, ops, index, store⟩ =
      (List.range k).map fun i => (items steps failure?)[i]? := by
  induction ops generalizing index store steps k with
  | nil =>
      cases h
      exact take_of_ended rfl k
  | cons o os ih =>
      cases k with
      | zero => rfl
      | succ k =>
          rw [upTo_cons] at h
          cases h with
          | @failed _ _ _ _ e hx =>
              cases e with
              | error cause => exact take_succ (next_of_error hx) (take_of_ended rfl k)
              | fault f =>
                  obtain rfl : k = 0 := by simpa using hk f rfl
                  exact take_succ (next_of_fault hx) rfl
          | @step _ _ _ _ _ _ _ steps _ hx hv ht =>
              refine take_succ (next_of_ok hx hv) ?_
              -- the stop operation is the last one of the trace, the others are not
              by_cases hs : stop = some o.name
              · rw [if_pos hs] at ht ⊢
                cases ht
                exact take_of_ended rfl k
              · have hk' : ∀ f, failure? = some (.fault f) → k ≤ steps.length + 1 := by
                  intro f hf
                  simpa using hk f hf
                rw [if_neg hs] at ht ⊢
                exact ih ht k hk'

/-! ## Results -/

def record (steps : List Step) : Store :=
  (steps.map fun s => (s.operation.name, s.output)).reverse

def outcome {α : Type} (failure? : Option (Failure ProgramError))
    (delivery : Except (Failure ProgramError) α) : Except (Failure ProgramError) α :=
  match failure? with
  | some e => .error e
  | none => delivery

theorem Trace.runFrom (h : p.Trace feed index store (upTo stop ops) steps failure?) :
    p.runFrom feed stop store ops = outcome failure? (.ok (record steps ++ store)) := by
  induction ops generalizing index store steps with
  | nil =>
      cases h
      rfl
  | cons o os ih =>
      rw [upTo_cons] at h
      rw [Program.runFrom]
      cases h with
      | failed hx =>
          rw [hx, Outcome.error_bind]
          rfl
      | step hx _ ht =>
          rw [hx, Outcome.ok_bind]
          dsimp only
          by_cases hs : stop = some o.name
          · rw [if_pos hs] at ht ⊢
            cases ht
            rfl
          · rw [if_neg hs] at ht ⊢
            rw [ih ht, record, record, List.map_cons, List.reverse_cons, List.append_assoc,
              List.singleton_append]

def latest (steps : List Step) (name : String) : Except (Failure ProgramError) Value :=
  match steps.reverse.find? (·.operation.name = name) with
  | some s => .ok s.output
  | none => Failure.refuse (.notFound name)

theorem requested_record (steps : List Step) (name : String) :
    requested (record steps) name = latest steps name := by
  have hl : ∀ ss : List Step, (ss.map fun s => (s.operation.name, s.output)).lookup name =
      (ss.find? (·.operation.name = name)).map Step.output := by
    intro ss
    induction ss with
    | nil => rfl
    | cons s ss ih =>
        by_cases hn : s.operation.name = name
        · simp [hn]
        · rw [List.map_cons, List.lookup_cons, beq_false_of_ne (Ne.symm hn), ih,
            List.find?_cons_of_neg (by simpa using hn)]
  rw [requested, record, ← List.map_reverse, hl, latest]
  cases steps.reverse.find? (·.operation.name = name) <;> rfl

theorem Trace.run (h : p.Trace feed 0 [] (upTo stop p.operations) steps failure?)
    (outputs : List String) :
    p.run feed outputs stop = outcome failure?
      (if outputs = [] then .ok (steps.getLast?.map Step.output).toList
        else outputs.mapM (latest steps)) := by
  rw [run_eq, h.runFrom, List.append_nil]
  cases failure? with
  | some e => rfl
  | none =>
      rw [outcome, outcome, Outcome.ok_bind, funext (requested_record steps)]
      by_cases hne : outputs = []
      · subst hne
        rw [if_pos rfl, record, List.head?_reverse, List.getLast?_map, Option.map_map]
        rfl
      · rw [if_neg hne, if_neg (by simpa using hne)]

/-! ## The reference backend -/

theorem viewsSucceed_of_forall (h : ∀ o ∈ ops, ∀ inputs output, o.forward inputs = .ok output →
    ∃ view, Execution.view o inputs output = .ok view) : p.ViewsSucceed feed store ops := by
  induction ops generalizing store with
  | nil => trivial
  | cons o os ih =>
      rw [List.forall_mem_cons] at h
      intro inputs output hx
      exact ⟨h.1 inputs output (execute_eq_ok.1 hx).2, ih h.2⟩

/-- What calibration looks at is a part of what the kernel computes. -/
theorem exists_calibration {k : Kernel} {opType name : String} {inputs : List Value} {output : Value}
    (h : k.forward opType name inputs = .ok output) :
    ∃ view?, k.calibration opType name inputs = .ok view? := by
  cases k with
  | convolution spec =>
      obtain ⟨t, ht, h⟩ := Outcome.bind_eq_ok.1 h
      obtain ⟨sums, hs, -⟩ := Outcome.bind_eq_ok.1 h
      exact ⟨_, by rw [Kernel.calibration, ht, Outcome.ok_bind, hs]; rfl⟩
  | _ => exact ⟨none, rfl⟩

theorem exists_view {k : Kernel} {n : Node} {reads : List String} {S : Shapes}
    {inputs : List Value} {output : Value}
    (h : (k.operation n reads S).forward inputs = .ok output) :
    ∃ view, Execution.view (k.operation n reads S) inputs output = .ok view := by
  obtain ⟨view?, hv⟩ := exists_calibration (Outcome.mapError_eq_ok.1 h)
  have hc : (k.operation n reads S).calibration inputs = .ok view? := Outcome.mapError_eq_ok.2 hv
  rw [Execution.view]
  split
  · rw [hc]
    exact ⟨view?.getD output, rfl⟩
  · exact ⟨output, rfl⟩

theorem view_of_lower {name : String} {nodes : List Node} {r : Recipe}
    (hl : lower name nodes r = .ok p) (ht : r.table = Cpu.table) {o : Operation}
    (ho : o ∈ p.operations) {inputs : List Value} {output : Value}
    (hf : o.forward inputs = .ok output) :
    ∃ view, Execution.view o inputs output = .ok view := by
  obtain ⟨n, -, h, known, hm, hok⟩ := Cpu.exists_handler_of_operation hl ht ho
  obtain ⟨k, reads, S, -, rfl, -⟩ := Cpu.applies_of_handler hm hok
  exact exists_view hf

theorem viewsSucceed_of_lower {name : String} {nodes : List Node} {r : Recipe}
    (hl : lower name nodes r = .ok p) (ht : r.table = Cpu.table) (feed : Dict Tensor)
    (stop : Option String) : p.ViewsSucceed feed [] (upTo stop p.operations) :=
  viewsSucceed_of_forall fun _ ho _ _ hf => view_of_lower hl ht (mem_of_mem_upTo ho) hf

/-- Unless a view fails, an execution that is asked for one step at a time answers with the steps of
the operations in order, up to the stop operation or with the failure of the first operation that
fails, and a run delivers the outputs of these steps or the same failure. In the reference backend
no view fails. -/
theorem run_eq_steps :
    (∀ (p : Program) (feed : Dict Tensor) (stop : Option String),
      p.ViewsSucceed feed [] (upTo stop p.operations) →
        ∃ steps failure?, p.Trace feed 0 [] (upTo stop p.operations) steps failure? ∧
          steps.map Step.index = List.range steps.length ∧
          steps.map Step.operation <+: upTo stop p.operations ∧
          (failure? = none → steps.map Step.operation = upTo stop p.operations) ∧
          (∀ k, (∀ f, failure? = some (.fault f) → k ≤ steps.length + 1) →
            (Execution.start p feed stop).take k =
              (List.range k).map fun i => (items steps failure?)[i]?) ∧
          ∀ outputs, p.run feed outputs stop = outcome failure?
            (if outputs = [] then .ok (steps.getLast?.map Step.output).toList
              else outputs.mapM (latest steps))) ∧
      ∀ name nodes r p, r.table = Cpu.table → lower name nodes r = .ok p →
        ∀ feed stop, p.ViewsSucceed feed [] (upTo stop p.operations) := by
  refine ⟨fun p feed stop hv => ?_, fun name nodes r p ht hl => viewsSucceed_of_lower hl ht⟩
  obtain ⟨steps, failure?, ht⟩ := exists_trace hv 0
  refine ⟨steps, failure?, ht, ?_, ht.map_operation.1, ht.map_operation.2, ht.take, ht.run⟩
  rw [ht.map_index, List.range_eq_range']

theorem steps_of_addends : ∃ (feed : Dict Tensor) (p : Program) (steps : List Step),
    lower "sum" Cpu.addends ⟨"cpu", Cpu.table, .empty, openBatch⟩ = .ok p ∧
      p.ViewsSucceed feed [] (upTo (some "y") p.operations) ∧
        p.Trace feed 0 [] (upTo (some "y") p.operations) steps none ∧
          steps.map Step.index = [0, 1] ∧
            p.run feed ["y", "sum"] (some "y") = ["y", "sum"].mapM (latest steps) := by
  let feed : Dict Tensor := ⟨[("x", ⟨[1], [⟨7⟩]⟩), ("y", ⟨[1], [⟨9⟩]⟩)]⟩
  have hlower : (lower "sum" Cpu.addends ⟨"cpu", Cpu.table, .empty, openBatch⟩).map (fun p =>
      (p.run feed [] (some "y"), (upTo (some "y") p.operations).length)) =
        .ok (.ok [.tensor ⟨[1], [⟨9⟩]⟩], 2) := by decide +kernel
  obtain ⟨p, hl, he⟩ := Outcome.map_eq_ok.1 hlower
  obtain ⟨hr, hlength⟩ := Prod.mk.inj he
  have hv := run_eq_steps.2 _ _ _ p rfl hl feed (some "y")
  obtain ⟨steps, failure?, ht, hindex, -, hall, -, hrun⟩ := run_eq_steps.1 p feed (some "y") hv
  obtain rfl : failure? = none := by
    cases failure? with
    | none => rfl
    | some e =>
        rw [hrun, outcome] at hr
        cases hr
  have hsteps : steps.length = 2 := by
    rw [← hlength, ← hall rfl, List.length_map]
  exact ⟨feed, p, steps, hl, hv, ht, by rw [hindex, hsteps]; rfl, hrun ["y", "sum"]⟩

end Dataflow.Program
