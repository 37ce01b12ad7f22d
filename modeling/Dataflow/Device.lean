import Dataflow.Cpu.Lowering
import Dataflow.Program.Basic

/-!
# Devices

The dispatch tables that are published under device names. A table that is published replaces the
one of the same name. Backends contribute tables of their own; these are published when the
registry is first asked something, and so come after everything published before that.
-/

namespace Dataflow

/-- The published tables, and the contributions that wait for the first question. -/
structure Registry where
  tables : Dict DispatchTable
  waiting : List (String × DispatchTable)

namespace Cpu

def devices : List String := ["cpu", "cpu-ref"]

/-- What the reference backend publishes. -/
def contribution : List (String × DispatchTable) := devices.map fun d => (d, table)

end Cpu

namespace Registry

/-- The registry of a program that contains the reference backend. -/
def start : Registry := ⟨.empty, Cpu.contribution⟩

def publish (r : Registry) (device : String) (table : DispatchTable) : Registry :=
  { r with tables := r.tables.insert device table }

def publishAll (r : Registry) (tables : List (String × DispatchTable)) : Registry :=
  tables.foldl (fun r e => r.publish e.1 e.2) r

/-- The registry after a question: nothing waits any more. -/
def asked (r : Registry) : Registry := { r.publishAll r.waiting with waiting := [] }

def lookup (r : Registry) (device : String) : Option DispatchTable := r.asked.tables.get? device

def contains (r : Registry) (device : String) : Bool := (r.lookup device).isSome

def devices (r : Registry) : List String := r.asked.tables.keys

inductive Call where
  | publish (device : String) (table : DispatchTable)
  /-- Publishes the table of the reference backend anew. -/
  | publishBackend
  | lookup (device : String)
  | contains (device : String)
  | devices

inductive Answer where
  | published
  | table (found : Option DispatchTable)
  | isKnown (known : Bool)
  | names (devices : List String)

def respond (r : Registry) : Call → Answer × Registry
  | .publish device table => (.published, r.publish device table)
  | .publishBackend => (.published, r.publishAll Cpu.contribution)
  | .lookup device => (.table (r.lookup device), r.asked)
  | .contains device => (.isKnown (r.contains device), r.asked)
  | .devices => (.names r.devices, r.asked)

def answers (r : Registry) : List Call → List Answer
  | [] => []
  | c :: cs => (r.respond c).1 :: answers (r.respond c).2 cs

/-- The program of a list of nodes for a device of the registry. -/
def program (r : Registry) (name : String) (nodes : List Node) (params : Dict Tensor)
    (device : String) (batch : Int) : Except ProgramError Program :=
  match r.lookup device with
  | none => .error (.unknownDevice device)
  | some table => Program.lower name nodes ⟨device, table, params, batch⟩

end Registry

end Dataflow
