import Dataflow.Json.Numeral
import Dataflow.Json.Reader
import Dataflow.Partition
import Dataflow.Substitution.Options

/-!
# Graphs as JSON values

How nodes, graphs, partitions and build options are laid out in JSON, in both directions. Records
are objects with their fields in a fixed order; fields that have a default may be left out when
reading. A sum is an object whose single member names the case.

Nested attribute maps are the only part that may nest without bound, and reading them is where the
limit on nesting comes in: `room` counts the containers that may still be opened.
-/

namespace Dataflow

/-- The containers that may be open at one point of a stored text. -/
def Json.nesting : Nat := 127

def Dict.toJson (f : α → Json) (d : Dict α) : Json :=
  .record (d.entries.map fun e => (e.1, f e.2))

/-- Of members with one name the last counts. -/
def Dict.ofJson? (f : Json → Option α) (j : Json) : Option (Dict α) := do
  let entries ← (← j.members?).mapM fun m => (f m.2).map fun x => (m.1, x)
  return .ofList entries

namespace Tensor

def toJson (t : Tensor) : Json :=
  .record [("shape", .record [("dims", .arr (t.dims.map .size))]),
    ("data", .arr (t.data.map Single.toJson))]

def dimsOfJson? (j : Json) : Option (List Nat) := do
  let [dims] ← j.fields? ["dims"] | none
  Json.required? (Json.listOf? Json.asSize?) dims

def ofJson? (j : Json) : Option Tensor := do
  let [shape, data] ← j.fields? ["shape", "data"] | none
  return ⟨← Json.required? dimsOfJson? shape, ← Json.required? (Json.listOf? Json.asSingle?) data⟩

end Tensor

namespace Attr

mutual

def toJson : Attr → Json
  | bool b => .record [("bool", .bool b)]
  | int n => .record [("int", .int n)]
  | float x => .record [("float", x.toJson)]
  | str s => .record [("str", .text s)]
  | ints ns => .record [("ints", .arr (ns.map .int))]
  | floats xs => .record [("floats", .arr (xs.map Double.toJson))]
  | strs ss => .record [("strs", .texts ss)]
  | map entries => .record [("map", mapToJson entries)]

def mapToJson : Dict Attr → Json
  | ⟨entries⟩ => .record (entriesToJson entries)

def entriesToJson : List (String × Attr) → List (String × Json)
  | [] => []
  | (k, x) :: es => (k, toJson x) :: entriesToJson es

end

/-- Reads an attribute that may open `room` containers. -/
def ofJson? : (room : Nat) → Json → Option Attr
  | 0, _ => none
  | room + 1, j => do
    let (tag, payload) ← j.variant?
    match tag with
    | "bool" => payload.asBool?.map bool
    | "int" => payload.asInt?.map int
    | "float" => payload.asDouble?.map float
    | "str" => payload.asText?.map str
    | _ =>
      match room with
      | 0 => none
      | room + 1 =>
        match tag with
        | "ints" => (payload.listOf? Json.asInt?).map ints
        | "floats" => (payload.listOf? Json.asDouble?).map floats
        | "strs" => payload.texts?.map strs
        | "map" => (Dict.ofJson? (ofJson? room) payload).map map
        | _ => none

end Attr

namespace TensorShape

def toJson (s : TensorShape) : Json := .arr (s.dims.map .int)

def ofJson? (j : Json) : Option TensorShape := (j.listOf? Json.asInt?).map mk

end TensorShape

namespace Shapes

def toJson : Shapes → Json
  | tensor s => .record [("Tensor", s.toJson)]
  | tuple items => .record [("Tuple", .arr (items.map TensorShape.toJson))]

def ofJson? (j : Json) : Option Shapes := do
  let (tag, payload) ← j.variant?
  match tag with
  | "Tensor" => (TensorShape.ofJson? payload).map tensor
  | "Tuple" => (payload.listOf? TensorShape.ofJson?).map tuple
  | _ => none

end Shapes

namespace Node

def fieldNames : List String :=
  ["name", "type", "shapes", "bottoms", "tops", "layer", "attrs", "data", "subgraph", "target",
    "internal"]

def toJson (n : Node) : Json :=
  .record [("name", .text n.name), ("type", .texts n.types), ("shapes", n.shapes.toJson),
    ("bottoms", .texts n.bottoms), ("tops", .texts n.tops), ("layer", .texts n.layer),
    ("attrs", Attr.mapToJson n.attrs), ("data", .arr (n.data.map Tensor.toJson)),
    ("subgraph", (n.subgraph.map Json.text).getD .null), ("target", .text n.target),
    ("internal", .bool n.internal)]

/-- Reads a node that may open `room` containers; its attribute map opens the second. -/
def ofJson? (room : Nat) (j : Json) : Option Node := do
  let [name, types, shapes, bottoms, tops, layer, attrs, data, subgraph, target, internal] ←
    j.fields? fieldNames | none
  return {
    name := ← Json.required? Json.asText? name
    types := ← Json.required? Json.texts? types
    shapes := ← Json.required? Shapes.ofJson? shapes
    bottoms := ← Json.optional? Json.texts? [] bottoms
    tops := ← Json.optional? Json.texts? [] tops
    layer := ← Json.optional? Json.texts? [] layer
    attrs := ← Json.optional? (Dict.ofJson? (Attr.ofJson? (room - 2))) .empty attrs
    data := ← Json.optional? (Json.listOf? Tensor.ofJson?) [] data
    subgraph := ← Json.optional? (Json.option? Json.asText?) none subgraph
    target := ← Json.optional? Json.asText? "cpu" target
    internal := ← Json.optional? Json.asBool? false internal }

end Node

namespace Artifact

def toJson (a : Artifact) : Json :=
  .record [("in_map", a.inMap.toJson .text), ("out_map", a.outMap.toJson .text)]

def ofJson? (j : Json) : Option Artifact := do
  let [inMap, outMap] ← j.fields? ["in_map", "out_map"] | none
  return ⟨← Json.required? (Dict.ofJson? Json.asText?) inMap,
    ← Json.required? (Dict.ofJson? Json.asText?) outMap⟩

end Artifact

namespace CompilerOutput

def toJson (o : CompilerOutput) : Json := .record [("artifacts", o.artifacts.toJson (·.toJson))]

def ofJson? (j : Json) : Option CompilerOutput := do
  let [artifacts] ← j.fields? ["artifacts"] | none
  return ⟨← Json.required? (Dict.ofJson? Artifact.ofJson?) artifacts⟩

end CompilerOutput

namespace Partition

def fieldNames : List String :=
  ["id", "target", "bottoms", "tops", "input_names", "output_names", "subgraph_data",
    "top_tensors", "shapes"]

/-- Reads a partition; the nodes of its interior lie two containers deep. -/
def ofJson? (j : Json) : Option Partition := do
  let [id, target, bottoms, tops, inputNames, outputNames, interior, readers, shapes] ←
    j.fields? fieldNames | none
  return {
    id := ← Json.required? Json.asText? id
    target := ← Json.required? Json.asText? target
    bottoms := ← Json.required? Json.texts? bottoms
    tops := ← Json.required? Json.texts? tops
    inputNames := ← Json.required? Json.texts? inputNames
    outputNames := ← Json.required? Json.texts? outputNames
    interior := ← Json.required? (Json.listOf? (Node.ofJson? (Json.nesting - 2))) interior
    readers := ← Json.required? (Dict.ofJson? Json.texts?) readers
    shapes := ← Json.required? (Json.listOf? TensorShape.ofJson?) shapes }

end Partition

namespace Layout

def toJson (l : Layout) : Json := .text l.name

/-- A layout is its name, or an object whose only member has that name and is `null`. -/
def ofJson? (j : Json) : Option Layout :=
  match j with
  | .str (some s) => ofName? s
  | _ =>
    match j.variant? with
    | some (s, .null) => ofName? s
    | _ => none

end Layout

namespace BuildOptions

/-- Reads build options; an extra attribute lies two containers deep. -/
def ofJson? (j : Json) : Option BuildOptions := do
  let [target, collapsedType, layout, extraAttrs] ←
    j.fields? ["target", "collapsed_type", "layout", "extra_attrs"] | none
  return {
    target := ← Json.required? Json.asText? target
    collapsedType := ← Json.required? Json.asText? collapsedType
    layout := ← Json.optional? Layout.ofJson? .standard layout
    extraAttrs :=
      ← Json.optional? (Dict.ofJson? (Attr.ofJson? (Json.nesting - 2))) .empty extraAttrs }

def parse? (text : String) : Option BuildOptions := do ofJson? (← Json.parse? text)

end BuildOptions

end Dataflow
