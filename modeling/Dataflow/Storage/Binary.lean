import Dataflow.Storage.Codec
import Dataflow.Storage.Text

/-!
# Graphs as bytes

The binary form of graphs and partitions: every record is its fields in order, without names and
without defaults. An attribute map nests, so reading an attribute takes the number of bytes at
hand as a bound on the depth; every level takes some of them, and when none are left the value is
cut off in any case.
-/

namespace Dataflow

def Tensor.codec : Codec Tensor :=
  (Codec.pair (.list .size) (.list .single)).via (fun t => (t.dims, t.data)) fun x => ⟨x.1, x.2⟩

namespace Attr

def encodeCase (tag : Nat) (payload : List UInt8) : List UInt8 := littleEndian 4 tag ++ payload

mutual

def encode : Attr → List UInt8
  | bool b => encodeCase 0 (Codec.bool.encode b)
  | int n => encodeCase 1 (Codec.int.encode n)
  | float x => encodeCase 2 (Codec.double.encode x)
  | str s => encodeCase 3 (Codec.text.encode s)
  | ints ns => encodeCase 4 ((Codec.list .int).encode ns)
  | floats xs => encodeCase 5 ((Codec.list .double).encode xs)
  | strs ss => encodeCase 6 ((Codec.list .text).encode ss)
  | map entries => encodeCase 7 (encodeMap entries)

def encodeMap : Dict Attr → List UInt8
  | ⟨entries⟩ => littleEndian 8 entries.length ++ encodeEntries entries

def encodeEntries : List (String × Attr) → List UInt8
  | [] => []
  | (k, x) :: es => Codec.text.encode k ++ encode x ++ encodeEntries es

end

def decodeMap (item : Reader Attr) : Reader (Dict Attr) := do
  let n ← Reader.word 8
  let entries ← Reader.many (do
    let k ← Codec.text.decode
    let x ← item
    return (k, x)) n
  return .ofList entries

/-- Reads an attribute that nests no deeper than `depth` maps. -/
def decode : (depth : Nat) → Reader Attr
  | 0 => throw .endOfData
  | depth + 1 => do
    match ← Reader.word 4 with
    | 0 => return bool (← Codec.bool.decode)
    | 1 => return int (← Codec.int.decode)
    | 2 => return float (← Codec.double.decode)
    | 3 => return str (← Codec.text.decode)
    | 4 => return ints (← (Codec.list .int).decode)
    | 5 => return floats (← (Codec.list .double).decode)
    | 6 => return strs (← (Codec.list .text).decode)
    | 7 => return map (← decodeMap (decode depth))
    | _ => throw .unknownCase

def codec : Codec Attr := ⟨encode, fun bytes => decode bytes.length bytes⟩

end Attr

def TensorShape.codec : Codec TensorShape := (Codec.list .int).via dims mk

def Shapes.codec : Codec Shapes where
  encode
    | .tensor s => littleEndian 4 0 ++ TensorShape.codec.encode s
    | .tuple items => littleEndian 4 1 ++ (Codec.list TensorShape.codec).encode items
  decode := do
    match ← Reader.word 4 with
    | 0 => return .tensor (← TensorShape.codec.decode)
    | 1 => return .tuple (← (Codec.list TensorShape.codec).decode)
    | _ => throw .unknownCase

def Codec.texts : Codec (List String) := list text

def Node.codec : Codec Node :=
  (Codec.pair .text <| .pair .texts <| .pair Shapes.codec <| .pair .texts <| .pair .texts <|
    .pair .texts <| .pair (.dict Attr.codec) <| .pair (.list Tensor.codec) <|
    .pair (.option .text) <| .pair .text .bool).via
    (fun n => (n.name, n.types, n.shapes, n.bottoms, n.tops, n.layer, n.attrs, n.data, n.subgraph,
      n.target, n.internal))
    fun (name, types, shapes, bottoms, tops, layer, attrs, data, subgraph, target, internal) =>
      { name, types, shapes, bottoms, tops, layer, attrs, data, subgraph, target, internal }

def Artifact.codec : Codec Artifact :=
  (Codec.pair (.dict .text) (.dict .text)).via (fun a => (a.inMap, a.outMap)) fun x => ⟨x.1, x.2⟩

def CompilerOutput.codec : Codec CompilerOutput := (Codec.dict Artifact.codec).via artifacts mk

def Partition.codec : Codec Partition :=
  (Codec.pair .text <| .pair .text <| .pair .texts <| .pair .texts <| .pair .texts <|
    .pair .texts <| .pair (.list Node.codec) <| .pair (.dict .texts) (.list TensorShape.codec)).via
    (fun p => (p.id, p.target, p.bottoms, p.tops, p.inputNames, p.outputNames, p.interior,
      p.readers, p.shapes))
    fun (id, target, bottoms, tops, inputNames, outputNames, interior, readers, shapes) =>
      { id, target, bottoms, tops, inputNames, outputNames, interior, readers, shapes }

def StoredGraph.codec : Codec StoredGraph :=
  (Codec.pair .text <| .pair .text <| .pair (.list Node.codec)
    (.option CompilerOutput.codec)).via
    (fun s => (s.version, s.name, s.nodes, s.compilerOutput))
    fun (version, name, nodes, compilerOutput) => { version, name, nodes, compilerOutput }

namespace Graph

def toBytes (g : Graph) : List UInt8 := StoredGraph.codec.encode (.ofGraph g)

def ofBytes (bytes : List UInt8) : Except (StorageError BinaryError) Graph :=
  match StoredGraph.codec.read bytes with
  | .error trouble => .error (.format trouble)
  | .ok s => s.toGraph

end Graph

end Dataflow
