import Dataflow.Partition

/-!
# What can be stored

Integers, counts and lengths are machine words wherever they are stored, and a dictionary is stored
entry by entry, the keys in order. A value is *storable* when nothing in it is out of these bounds.
Every value that a machine builds up is: sizes and lengths are words there, integers are signed
words, and dictionaries are built by inserting.
-/

namespace Dataflow

namespace Storable

def Integer (n : Int) : Prop := -(Size.signedLimit : Int) ≤ n ∧ n < (Size.signedLimit : Int)

def Count (n : Nat) : Prop := n < Size.limit

def Text (s : String) : Prop := Count s.toUTF8.size

variable {α : Type}

def Items (P : α → Prop) (xs : List α) : Prop := Count xs.length ∧ ∀ x ∈ xs, P x

structure Entries (P : α → Prop) (d : Dict α) : Prop where
  ordered : d.Ordered
  length : Count d.entries.length
  keys : ∀ e ∈ d.entries, Text e.1
  values : ∀ e ∈ d.entries, P e.2

instance (d : Dict α) : Decidable d.Ordered := inferInstanceAs (Decidable (List.Pairwise _ _))

instance (n : Int) : Decidable (Integer n) := inferInstanceAs (Decidable (_ ∧ _))

instance (n : Nat) : Decidable (Count n) := inferInstanceAs (Decidable (_ < _))

instance (s : String) : Decidable (Text s) := inferInstanceAs (Decidable (Count _))

instance (P : α → Prop) [DecidablePred P] (xs : List α) : Decidable (Items P xs) :=
  inferInstanceAs (Decidable (_ ∧ _))

end Storable

open Storable

/-- The attribute can be stored. Its maps are in order on every level. -/
inductive Attr.Storable : Attr → Prop
  | bool (b : Bool) : Storable (.bool b)
  | int {n : Int} (hn : Integer n) : Storable (.int n)
  | float (x : Double) : Storable (.float x)
  | str {s : String} (hs : Text s) : Storable (.str s)
  | ints {ns : List Int} (hns : Items Integer ns) : Storable (.ints ns)
  | floats {xs : List Double} (hlength : Count xs.length) : Storable (.floats xs)
  | strs {ss : List String} (hss : Items Text ss) : Storable (.strs ss)
  | map {d : Dict Attr} (ordered : d.Ordered) (hlength : Count d.entries.length)
      (keys : ∀ e ∈ d.entries, Text e.1) (values : ∀ e ∈ d.entries, Storable e.2) :
      Storable (.map d)

/-- The tensor can be stored; dimensions and data need not agree. -/
structure Tensor.Storable (t : Tensor) : Prop where
  dims : Items Count t.dims
  data : Count t.data.length

def TensorShape.Storable (s : TensorShape) : Prop := Items Integer s.dims

instance (s : TensorShape) : Decidable s.Storable := inferInstanceAs (Decidable (Items _ _))

def Shapes.Storable : Shapes → Prop
  | tensor s => s.Storable
  | tuple items => Items TensorShape.Storable items

structure Node.Storable (n : Node) : Prop where
  name : Text n.name
  types : Items Text n.types
  shapes : n.shapes.Storable
  bottoms : Items Text n.bottoms
  tops : Items Text n.tops
  layer : Items Text n.layer
  attrs : Entries Attr.Storable n.attrs
  data : Items Tensor.Storable n.data
  subgraph : ∀ id ∈ n.subgraph, Text id
  target : Text n.target

structure Artifact.Storable (a : Artifact) : Prop where
  inMap : Entries Text a.inMap
  outMap : Entries Text a.outMap

def CompilerOutput.Storable (o : CompilerOutput) : Prop := Entries Artifact.Storable o.artifacts

structure Graph.Storable (g : Graph) : Prop where
  name : Text g.name
  nodes : Items Node.Storable g.nodes
  compilerOutput : ∀ o ∈ g.compilerOutput, o.Storable

structure Partition.Storable (p : Partition) : Prop where
  id : Text p.id
  target : Text p.target
  bottoms : Items Text p.bottoms
  tops : Items Text p.tops
  inputNames : Items Text p.inputNames
  outputNames : Items Text p.outputNames
  interior : Items Node.Storable p.interior
  readers : Entries (Items Text) p.readers
  shapes : Items TensorShape.Storable p.shapes

end Dataflow
