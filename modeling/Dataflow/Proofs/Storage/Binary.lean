import Dataflow.Proofs.Storage.Readable
import Dataflow.Proofs.Storage.Reading

/-!
# The binary form loses nothing

Every storable graph is read back from its bytes, whatever stands behind them, and none of the
bytes can be missing at the end. The same holds for partitions. Records follow their fields; the
argument is about attributes, whose maps nest: reading one level deeper is allowed one byte fewer,
and the case number in front has taken four.
-/

namespace Dataflow

open Storable

/-! ## Lists and dictionaries of storable values -/

namespace Codec

variable {α : Type} {c : Codec α} {P : α → Prop}

theorem restores_items {xs : List α} (h : Items P xs) (hc : ∀ x, P x → c.Restores x) :
    (list c).Restores xs :=
  restores_list h.1 fun x hx => hc x (h.2 x hx)

theorem restores_texts {ss : List String} (h : Items Text ss) : texts.Restores ss :=
  restores_items h fun _ hs => restores_text hs

theorem restores_entries {d : Dict α} (h : Entries P d) (hc : ∀ x, P x → c.Restores x) :
    (dict c).Restores d :=
  restores_dict h.ordered h.length h.keys fun e he => hc e.2 (h.values e he)

end Codec

/-! ## Attributes -/

namespace Attr

open Reader

variable {depth : Nat} {a : Attr}

theorem takes_case {f : Nat → Reader Attr} {tag : Nat} {payload : List UInt8}
    (h : (f tag).Takes depth payload a) (ht : tag < Nat.pow 256 4) :
    (word 4 >>= f).Takes (depth + 1) (encodeCase tag payload) a := by
  refine (takes_word ht).bind_of_le h ?_
  rw [length_littleEndian]
  omega

theorem encode_ne_nil (a : Attr) : encode a ≠ [] := by
  intro hnil
  have hcase : ∀ tag payload, encodeCase tag payload ≠ [] := by
    intro tag payload he
    have hlength := congrArg List.length he
    rw [encodeCase, List.length_append, length_littleEndian, List.length_nil] at hlength
    omega
  cases a <;> exact hcase _ _ hnil

theorem takes_zero (a : Attr) : (decode 0).Takes 0 (encode a) a := by
  refine ⟨fun rest hlength => ?_, fun _ _ _ _ => rfl⟩
  have hnil : encode a ++ rest = [] := List.length_eq_zero_iff.1 (Nat.le_zero.1 hlength)
  exact absurd (List.append_eq_nil_iff.1 hnil).1 (encode_ne_nil a)

theorem encodeEntries_eq_flatMap (es : List (String × Attr)) :
    encodeEntries es = es.flatMap fun e => Codec.text.encode e.1 ++ encode e.2 := by
  induction es with
  | nil => rfl
  | cons e es ih => rw [encodeEntries, ih, List.flatMap_cons]

theorem takes_map {item : Reader Attr} {limit : Nat} {d : Dict Attr} (ho : d.Ordered)
    (hlength : Count d.entries.length) (hk : ∀ e ∈ d.entries, Text e.1)
    (hv : ∀ e ∈ d.entries, item.Takes limit (encode e.2) e.2) :
    (decodeMap item).Takes limit (encodeMap d) d := by
  have hitem : ∀ e ∈ d.entries, (do
      let k ← Codec.text.decode
      let x ← item
      return (k, x) : Reader (String × Attr)).Takes limit
        (Codec.text.encode e.1 ++ encode e.2) e := fun e he =>
    (Codec.restores_text (hk e he) limit).bind ((hv e he).map fun x => (e.1, x))
  rw [encodeMap, encodeEntries_eq_flatMap]
  refine (takes_word hlength).bind ((takes_many hitem).bind_pure ?_)
  rw [Dict.ofList_entries ho]

/-- With a depth for every byte at hand, an attribute takes what it is written as. -/
theorem takes_of_storable (h : a.Storable) (depth : Nat) :
    (decode depth).Takes depth (encode a) a := by
  induction depth generalizing a with
  | zero => exact takes_zero a
  | succ depth ih =>
      cases h with
      | bool b => exact takes_case ((Codec.restores_bool b depth).map bool) (by decide)
      | int hn => exact takes_case ((Codec.restores_int hn.1 hn.2 depth).map int) (by decide)
      | float x => exact takes_case ((Codec.restores_double x depth).map float) (by decide)
      | str hs => exact takes_case ((Codec.restores_text hs depth).map str) (by decide)
      | ints hns =>
          have hlist := Codec.restores_items hns fun _ hn => Codec.restores_int hn.1 hn.2
          exact takes_case ((hlist depth).map ints) (by decide)
      | floats hlength =>
          have hlist := Codec.restores_list hlength fun x _ => Codec.restores_double x
          exact takes_case ((hlist depth).map floats) (by decide)
      | strs hss =>
          have hlist := Codec.restores_items hss fun _ hs => Codec.restores_text hs
          exact takes_case ((hlist depth).map strs) (by decide)
      | map ho hlength hk hv =>
          -- the values lie one level down, which is allowed one depth less
          have hentries := takes_map ho hlength hk fun e he => ih (hv e he)
          exact takes_case (hentries.map map) (by decide)

/-- An attribute is restored: reading it is allowed as many levels as there are bytes. -/
theorem Storable.restores (h : a.Storable) : codec.Restores a := by
  intro limit
  constructor
  · intro rest _
    exact (takes_of_storable h _).whole rest (Nat.le_refl _)
  · intro front _ hfront hne
    exact (takes_of_storable h _).cut front (Nat.le_refl _) hfront hne

end Attr

/-! ## Records -/

open Codec

theorem Tensor.Storable.restores {t : Tensor} (h : t.Storable) : Tensor.codec.Restores t := by
  have hdims := restores_items h.dims fun _ hn => restores_size hn
  have hdata := restores_list h.data fun x _ => restores_single x
  exact restores_via (restores_pair hdims hdata) rfl

theorem TensorShape.Storable.restores {s : TensorShape} (h : s.Storable) :
    TensorShape.codec.Restores s :=
  restores_via (restores_items h fun _ hn => restores_int hn.1 hn.2) rfl

theorem Shapes.Storable.restores {s : Shapes} (h : s.Storable) : Shapes.codec.Restores s := by
  intro limit
  cases s with
  | tensor s =>
      have hs := (TensorShape.Storable.restores h limit).map tensor
      exact (Reader.takes_word (by decide)).bind hs
  | tuple items =>
      have hitems := (restores_items h (fun _ hs => hs.restores) limit).map tuple
      exact (Reader.takes_word (by decide)).bind hitems

theorem Node.Storable.restores {n : Node} (h : n.Storable) : Node.codec.Restores n := by
  refine restores_via ?_ rfl
  have hattrs := restores_entries h.attrs fun _ ha => ha.restores
  have hdata := restores_items h.data fun _ ht => ht.restores
  have hsubgraph := restores_option fun id hid => restores_text (h.subgraph id hid)
  exact restores_pair (restores_text h.name) <| restores_pair (restores_texts h.types) <|
    restores_pair h.shapes.restores <| restores_pair (restores_texts h.bottoms) <|
    restores_pair (restores_texts h.tops) <| restores_pair (restores_texts h.layer) <|
    restores_pair hattrs <| restores_pair hdata <| restores_pair hsubgraph <|
    restores_pair (restores_text h.target) (restores_bool n.internal)

theorem Artifact.Storable.restores {a : Artifact} (h : a.Storable) : Artifact.codec.Restores a := by
  have hin := restores_entries h.inMap fun _ hs => restores_text hs
  have hout := restores_entries h.outMap fun _ hs => restores_text hs
  exact restores_via (restores_pair hin hout) rfl

theorem CompilerOutput.Storable.restores {o : CompilerOutput} (h : o.Storable) :
    CompilerOutput.codec.Restores o :=
  restores_via (restores_entries h fun _ ha => ha.restores) rfl

theorem Partition.Storable.restores {p : Partition} (h : p.Storable) :
    Partition.codec.Restores p := by
  refine restores_via ?_ rfl
  have hinterior := restores_items h.interior fun _ hn => hn.restores
  have hreaders := restores_entries h.readers fun _ hs => restores_texts hs
  have hshapes := restores_items h.shapes fun _ hs => hs.restores
  exact restores_pair (restores_text h.id) <| restores_pair (restores_text h.target) <|
    restores_pair (restores_texts h.bottoms) <| restores_pair (restores_texts h.tops) <|
    restores_pair (restores_texts h.inputNames) <| restores_pair (restores_texts h.outputNames) <|
    restores_pair hinterior <| restores_pair hreaders hshapes

/-- The storable partitions are those that are read back from their bytes. -/
theorem Partition.storable_iff_read_encode {p : Partition} :
    p.Storable ↔ Partition.codec.read (Partition.codec.encode p) = .ok p :=
  ⟨fun h => h.restores.read_encode, Partition.yields_codec.read⟩

/-! ## Graphs -/

namespace StoredGraph

theorem restores_ofGraph {g : Graph} (h : g.Storable) : codec.Restores (ofGraph g) := by
  refine restores_via ?_ rfl
  have hversion : Text currentVersion := by decide +kernel
  have hnodes := restores_items h.nodes fun _ hn => hn.restores
  have houtput := restores_option fun o ho => (h.compilerOutput o ho).restores
  exact restores_pair (restores_text hversion) <| restores_pair (restores_text h.name) <|
    restores_pair hnodes houtput

theorem toGraph_ofGraph {ε : Type} (g : Graph) :
    (ofGraph g).toGraph = (.ok g : Except (StorageError ε) Graph) := by
  rw [toGraph, ofGraph, if_pos rfl, Graph.ofNodes_self]
  rfl

end StoredGraph

namespace Graph

theorem ofBytes_append {g : Graph} (h : g.Storable) (rest : List UInt8) :
    ofBytes (g.toBytes ++ rest) = .ok g := by
  rw [ofBytes, toBytes, (StoredGraph.restores_ofGraph h).read_append]
  exact StoredGraph.toGraph_ofGraph g

theorem ofBytes_cut {g : Graph} (h : g.Storable) {front : List UInt8}
    (hfront : front <+: g.toBytes) (hne : front ≠ g.toBytes) :
    ofBytes front = .error (.format .endOfData) := by
  rw [ofBytes, (StoredGraph.restores_ofGraph h).read_cut hfront hne]

/-- The storable graphs are those that are read back from their bytes. -/
theorem storable_iff_ofBytes_toBytes {g : Graph} : g.Storable ↔ ofBytes g.toBytes = .ok g := by
  constructor
  · intro h
    have hread := ofBytes_append h []
    rwa [List.append_nil] at hread
  · exact storable_of_ofBytes

/-- Storable graphs and partitions are read back from their bytes with whatever stands behind these,
and of bytes that stop short of theirs, reading says that they do. -/
theorem ofBytes_toBytes :
    (∀ g : Graph, g.Storable →
      (∀ rest, ofBytes (g.toBytes ++ rest) = .ok g) ∧
        ∀ front, front <+: g.toBytes → front ≠ g.toBytes →
          ofBytes front = .error (.format .endOfData)) ∧
    ∀ p : Partition, p.Storable →
      (∀ rest, Partition.codec.read (Partition.codec.encode p ++ rest) = .ok p) ∧
        ∀ front, front <+: Partition.codec.encode p → front ≠ Partition.codec.encode p →
          Partition.codec.read front = .error .endOfData := by
  refine ⟨fun g hg => ⟨ofBytes_append hg, fun front => ofBytes_cut hg⟩, fun p hp => ?_⟩
  exact ⟨hp.restores.read_append, fun front => hp.restores.read_cut⟩

def nestedNode : Node where
  name := "π"
  types := ["Input", "Output"]
  shapes := .tuple [⟨[-1, 3]⟩, ⟨[]⟩]
  attrs := ⟨[("bounds", .map ⟨[("least", .int (-9223372036854775808)),
    ("rest", .map ⟨[("nan", .floats [⟨0x7FF8000000000001⟩])]⟩)]⟩), ("fused", .bool true)]⟩
  data := [⟨[2, 3], [⟨0x7FC00001⟩]⟩]
  subgraph := some "p"

theorem storable_nestedNode : nestedNode.Storable := by
  have hnan : (Attr.map ⟨[("nan", .floats [⟨0x7FF8000000000001⟩])]⟩).Storable := by
    refine .map (by decide +kernel) (by decide) (by decide +kernel) ?_
    exact List.forall_mem_singleton.2 (.floats (by decide))
  have hbounds : (Attr.map ⟨[("least", .int (-9223372036854775808)),
      ("rest", .map ⟨[("nan", .floats [⟨0x7FF8000000000001⟩])]⟩)]⟩).Storable := by
    refine .map (by decide +kernel) (by decide) (by decide +kernel) ?_
    exact List.forall_mem_cons.2 ⟨.int (by decide), List.forall_mem_singleton.2 hnan⟩
  exact {
    name := by decide +kernel
    types := by decide +kernel
    shapes := show Items TensorShape.Storable [⟨[-1, 3]⟩, ⟨[]⟩] by decide
    bottoms := by decide
    tops := by decide
    layer := by decide
    attrs :=
      { ordered := by decide +kernel
        length := by decide
        keys := by decide +kernel
        values := List.forall_mem_cons.2 ⟨hbounds, List.forall_mem_singleton.2 (.bool true)⟩ }
    data := ⟨by decide, List.forall_mem_singleton.2 ⟨by decide, by decide⟩⟩
    subgraph := by decide +kernel
    target := by decide +kernel }

theorem ofBytes_toBytes_nestedNode : ∃ (g : Graph) (p : Partition),
    (g.nodes = [nestedNode] ∧ g.compilerOutput.isSome = true ∧ p.interior = [nestedNode]) ∧
    (g.Storable ∧ (∀ rest, ofBytes (g.toBytes ++ rest) = .ok g) ∧
      ∀ front, front <+: g.toBytes → front ≠ g.toBytes →
        ofBytes front = .error (.format .endOfData)) ∧
    p.Storable ∧ (∀ rest, Partition.codec.read (Partition.codec.encode p ++ rest) = .ok p) ∧
      ∀ front, front <+: Partition.codec.encode p → front ≠ Partition.codec.encode p →
        Partition.codec.read front = .error .endOfData := by
  let artifact : Artifact := ⟨⟨[("in", "arg0")]⟩, ⟨[("π", "res0")]⟩⟩
  let g : Graph := ⟨"nested", [nestedNode], some ⟨⟨[("p", artifact)]⟩⟩, by decide, by decide⟩
  let p : Partition :=
    { id := "p", target := "npu", bottoms := ["in"], tops := [], inputNames := ["in"]
      outputNames := ["π"], interior := [nestedNode], readers := ⟨[("π", ["out"])]⟩
      shapes := [⟨[-1, 3]⟩] }
  have hnodes : Items Node.Storable [nestedNode] :=
    ⟨by decide, List.forall_mem_singleton.2 storable_nestedNode⟩
  have hartifact : artifact.Storable :=
    ⟨⟨by decide +kernel, by decide, by decide +kernel, by decide +kernel⟩,
      ⟨by decide +kernel, by decide, by decide +kernel, by decide +kernel⟩⟩
  have hg : g.Storable :=
    { name := by decide +kernel
      nodes := hnodes
      compilerOutput := by
        rintro o ⟨⟩
        exact ⟨by decide +kernel, by decide, by decide +kernel,
          List.forall_mem_singleton.2 hartifact⟩ }
  have hp : p.Storable :=
    { id := by decide +kernel
      target := by decide +kernel
      bottoms := by decide +kernel
      tops := by decide
      inputNames := by decide +kernel
      outputNames := by decide +kernel
      interior := hnodes
      readers := ⟨by decide +kernel, by decide, by decide +kernel, by decide +kernel⟩
      shapes := by decide +kernel }
  exact ⟨g, p, ⟨rfl, rfl, rfl⟩, ⟨hg, ofBytes_toBytes.1 g hg⟩, hp, ofBytes_toBytes.2 p hp⟩

end Graph

end Dataflow
