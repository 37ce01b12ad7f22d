import Dataflow.Program.Basic

/-!
# Running programs

The operations of a program run strictly in order. The value of an operation is kept under its
name, where a later operation of the same name replaces it. A name is resolved to a computed value
before a parameter, and to a parameter before a fed tensor, so neither of the former can be fed.

`Execution.advance` does one operation. `run` goes on to the end, to the stop operation or to the
first failure and delivers the requested values; `Execution.next` adds to every operation what
calibration looks at.
-/

namespace Dataflow

/-- An operation that was executed. -/
structure Executed where
  index : Nat
  operation : Operation
  inputs : List Value
  output : Value

structure Step where
  index : Nat
  operation : Operation
  inputs : List Value
  output : Value
  /-- What calibration looks at; the output, except for some operations. -/
  view : Value

namespace Program

abbrev Store := List (String × Value)

/-- The value of a name that the operation `o` reads. -/
def resolve (p : Program) (feed : Dict Tensor) (store : Store) (o : Operation) (name : String) :
    Except ProgramError Value :=
  match store.lookup name with
  | some v => .ok v
  | none =>
    match p.params.get? name with
    | some t => .ok (.tensor t)
    | none =>
      match feed.get? name with
      | some t => .ok (.tensor t)
      | none => .error (.unresolvedInput o.name name)

/-- The values of the operation's inputs, and the value it computes from them. -/
def execute (p : Program) (feed : Dict Tensor) (store : Store) (o : Operation) :
    Except (Failure ProgramError) (List Value × Value) := do
  let inputs ← (o.inputs.mapM (p.resolve feed store o)).mapError .error
  let output ← (o.forward inputs).mapError (.map (.kernel o.name))
  return (inputs, output)

end Program

structure Execution where
  program : Program
  feed : Dict Tensor
  stop : Option String
  pending : List Operation
  index : Nat
  store : Program.Store

namespace Execution

def start (p : Program) (feed : Dict Tensor) (stop : Option String) : Execution :=
  ⟨p, feed, stop, p.operations, 0, []⟩

def ended (e : Execution) : Execution := { e with pending := [] }

/-- Executes the next operation, if the run goes on: what came of it, and the run behind it. An
error and the stop operation end the run. A fault ends nothing: the run stands behind the operation
then, whose value is missing unless it was there before the fault. -/
def advance (e : Execution) : Option (Except (Failure ProgramError) Executed) × Execution :=
  match e.pending with
  | [] => (none, e)
  | o :: os =>
    match e.program.execute e.feed e.store o with
    | .error (.error cause) => (some (.error (.error cause)), e.ended)
    | .error (.fault fault) =>
      (some (.error (.fault fault)), { e with pending := os, index := e.index + 1 })
    | .ok (inputs, output) =>
      (some (.ok ⟨e.index, o, inputs, output⟩), { e with
        pending := if e.stop = some o.name then [] else os
        index := e.index + 1
        store := (o.name, output) :: e.store })

/-- What calibration looks at for an executed operation. -/
def view (o : Operation) (inputs : List Value) (output : Value) :
    Except (Failure ProgramError) Value := do
  if o.opType = Operation.calibratedType then
    let view? ← (o.calibration inputs).mapError
      (.map fun m => .kernel o.name s!"quantization view: {m}")
    return view?.getD output
  else return output

/-- The next step or failure, if the run goes on, and the run after it. An error of the view ends
the run, whose operation is executed by then. -/
def next (e : Execution) : Option (Except (Failure ProgramError) Step) × Execution :=
  match e.advance with
  | (none, after) => (none, after)
  | (some (.error f), after) => (some (.error f), after)
  | (some (.ok x), after) =>
    match view x.operation x.inputs x.output with
    | .error (.error cause) => (some (.error (.error cause)), after.ended)
    | .error (.fault fault) => (some (.error (.fault fault)), after)
    | .ok view => (some (.ok ⟨x.index, x.operation, x.inputs, x.output, view⟩), after)

def take : (k : Nat) → Execution → List (Option (Except (Failure ProgramError) Step))
  | 0, _ => []
  | k + 1, e => e.next.1 :: take k e.next.2

theorem pending_of_advance {e after : Execution} {x : Executed}
    (h : e.advance = (some (.ok x), after)) : after.pending.length < e.pending.length := by
  unfold advance at h
  split at h
  · cases h
  · next o os hp =>
    split at h
    · cases h
    · cases h
    · cases h
      rw [hp]
      dsimp only
      split
      · exact Nat.succ_pos _
      · exact Nat.lt_succ_self _

/-- Goes on to the end of the run: the values of those operations that are among `outputs`, and the
last value computed. -/
def collect (outputs : List String) (retained : Dict Value) (last : Option Value) (e : Execution) :
    Except (Failure ProgramError) (Dict Value × Option Value) :=
  match _h : e.advance with
  | (none, _) => .ok (retained, last)
  | (some (.error f), _) => .error f
  | (some (.ok x), after) =>
    let name := x.operation.name
    collect outputs (if name ∈ outputs then retained.insert name x.output else retained)
      (some x.output) after
termination_by e.pending.length
decreasing_by exact pending_of_advance _h

end Execution

/-- Runs the program: the values of the requested names in order, or the last value computed when
none is requested. -/
def Program.run (p : Program) (feed : Dict Tensor) (outputs : List String)
    (stop : Option String) : Except (Failure ProgramError) (List Value) := do
  let (retained, last) ← (Execution.start p feed stop).collect outputs .empty none
  if outputs.isEmpty then return last.toList
  else
    outputs.mapM fun name =>
      match retained.get? name with
      | some v => .ok v
      | none => Failure.refuse (.notFound name)

end Dataflow
