import Dataflow.Json.Printer
import Dataflow.Storage.Json

/-!
# Graphs as texts

A graph is stored as an indented JSON text that begins with a version tag. Reading it back decodes
the whole text first, then looks at the version, and then makes the graph, so every stored graph
has distinct node names and resolvable bottoms.
-/

namespace Dataflow

structure StoredGraph where
  version : String
  name : String
  nodes : List Node
  compilerOutput : Option CompilerOutput

/-- Why a stored graph could not be read; `format` is the trouble of the format it is stored in. -/
inductive StorageError (format : Type) where
  | format (trouble : format)
  | version (found : String)
  | graph (error : GraphError)
deriving DecidableEq

namespace StoredGraph

def currentVersion : String := "xgraph.v1"

def ofGraph (g : Graph) : StoredGraph := ⟨currentVersion, g.name, g.nodes, g.compilerOutput⟩

/-- The stored graph, which has to be of the current version. -/
def toGraph (s : StoredGraph) : Except (StorageError ε) Graph :=
  if s.version = currentVersion then
    (Graph.ofNodes s.name s.nodes s.compilerOutput).mapError .graph
  else .error (.version s.version)

def toJson (s : StoredGraph) : Json :=
  .record [("format_version", .text s.version), ("name", .text s.name),
    ("nodes", .arr (s.nodes.map Node.toJson)),
    ("compiler_output", (s.compilerOutput.map CompilerOutput.toJson).getD .null)]

def ofJson? (j : Json) : Option StoredGraph := do
  let [version, name, nodes, output] ←
    j.fields? ["format_version", "name", "nodes", "compiler_output"] | none
  return {
    version := ← Json.optional? Json.asText? currentVersion version
    name := ← Json.required? Json.asText? name
    nodes := ← Json.required? (Json.listOf? (Node.ofJson? (Json.nesting - 2))) nodes
    compilerOutput := ← Json.optional? (Json.option? CompilerOutput.ofJson?) none output }

end StoredGraph

def versionMessage (found : String) : String :=
  s!"graph format version '{found}' does not match expected '{StoredGraph.currentVersion}'"

inductive TextError where
  /-- The bytes of a file are no text. -/
  | notText
  | notJson
deriving DecidableEq, Repr

namespace Graph

def toText (g : Graph) : String := (StoredGraph.ofGraph g).toJson.pretty

def ofText (text : String) : Except (StorageError TextError) Graph :=
  match (Json.parse? text).bind StoredGraph.ofJson? with
  | none => .error (.format .notJson)
  | some s => s.toGraph

def ofFile (bytes : ByteArray) : Except (StorageError TextError) Graph :=
  match String.fromUTF8? bytes with
  | none => .error (.format .notText)
  | some text => ofText text

end Graph

def Node.parse? (text : String) : Option Node := do
  Node.ofJson? Json.nesting (← Json.parse? text)

def Tensor.parse? (text : String) : Option Tensor := do Tensor.ofJson? (← Json.parse? text)

def Partition.parse? (text : String) : Option Partition := do
  Partition.ofJson? (← Json.parse? text)

end Dataflow
