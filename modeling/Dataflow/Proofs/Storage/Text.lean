import Dataflow.Proofs.Graph.Validity
import Dataflow.Proofs.Json.Parsing
import Dataflow.Proofs.Storage.Reading
import Dataflow.Proofs.Storage.Values
import Dataflow.Storage.Text

/-!
# The text of a graph

A graph is read back from its text exactly when its attributes do not nest too deep for the reader
and its floating point numbers are finite; it is the same graph when every number is read back as
itself. The text itself is always written, since a number that is not finite has one too: `null`,
which is no number to the reader.
-/

namespace Dataflow

open Json Storable

namespace Restores

variable {α β γ : Type} {read : Option α} {read' : Option β} {x : α} {y : β}
  {legible exact legible' exact' : Prop}

/-- Two parts that are read one after the other. -/
theorem both (h : Restores read x legible exact) (h' : Restores read' y legible' exact')
    (c : α → β → γ) : Restores (read.bind fun x => read'.map (c x)) (c x y) (legible ∧ legible')
      (exact ∧ exact') := by
  refine ⟨?_, fun hl he => ?_⟩
  · rw [← h.accepts, ← h'.accepts]
    cases read <;> cases read' <;> simp
  · rw [h.same hl.1 he.1, h'.same hl.2 he.2]
    rfl

end Restores

/-! ## Nodes -/

namespace Node

def doubles (n : Node) : List Double := Attr.mapDoubles n.attrs

def singles (n : Node) : List Single := n.data.flatMap Tensor.data

theorem fields?_toJson (n : Node) : n.toJson.fields? fieldNames = some [some (.text n.name),
    some (.texts n.types), some n.shapes.toJson, some (.texts n.bottoms), some (.texts n.tops),
    some (.texts n.layer), some (Attr.mapToJson n.attrs), some (.arr (n.data.map Tensor.toJson)),
    some ((n.subgraph.map Json.text).getD .null), some (.text n.target),
    some (.bool n.internal)] :=
  fields?_record rfl (by decide)

theorem option?_subgraph (id : Option String) :
    option? asText? ((id.map Json.text).getD .null) = some id := by
  cases id <;> rfl

/-- Only the attributes and the tensors of a node can fail to be read. -/
theorem ofJson?_toJson {n : Node} (h : n.Storable) (room : Nat) : ofJson? room n.toJson =
    (Dict.ofJson? (Attr.ofJson? (room - 2)) (Attr.mapToJson n.attrs)).bind fun attrs =>
      (listOf? Tensor.ofJson? (arr (n.data.map Tensor.toJson))).map fun data =>
        { n with attrs, data } := by
  rw [ofJson?, fields?_toJson]
  dsimp only [Option.bind_eq_bind, Option.bind_some, required?, optional?, asBool?]
  simp only [asText?_text, texts?_texts, Shapes.ofJson?_toJson h.shapes, option?_subgraph,
    Option.bind_some]
  cases Dict.ofJson? (Attr.ofJson? (room - 2)) (Attr.mapToJson n.attrs) with
  | none => rfl
  | some attrs => cases listOf? Tensor.ofJson? (arr (n.data.map Tensor.toJson)) <;> rfl

theorem spelled_toJson {n : Node} (h : n.Storable) : n.toJson.Spelled := by
  have hattrs : (Attr.mapToJson n.attrs).Spelled := by
    rw [Attr.mapToJson_eq]
    exact spelled_record
      (List.forall_mem_map.2 fun e he => Attr.spelled_toJson (h.attrs.values e he))
  have hsubgraph : ((n.subgraph.map Json.text).getD .null).Spelled := by
    cases n.subgraph with
    | none => exact .null
    | some id => exact spelled_text id
  refine spelled_record ?_
  simp only [List.forall_mem_cons, List.not_mem_nil, false_implies, implies_true, and_true]
  exact ⟨spelled_text _, spelled_texts _, n.shapes.spelled_toJson, spelled_texts _, spelled_texts _,
    spelled_texts _, hattrs, spelled_arr_map fun t _ => t.spelled_toJson, hsubgraph, spelled_text _,
    .bool _⟩

/-- Name and bottoms of a node are what they were, whatever its numbers are read as. -/
theorem name_bottoms_of_ofJson? {n m : Node} (hn : n.Storable) {room : Nat}
    (h : ofJson? room n.toJson = some m) : (m.name, m.bottoms) = (n.name, n.bottoms) := by
  rw [ofJson?_toJson hn] at h
  obtain ⟨attrs, -, h⟩ := Option.bind_eq_some_iff.1 h
  obtain ⟨data, -, rfl⟩ := Option.map_eq_some_iff.1 h
  rfl

/-- Attributes that nest too deep and numbers that are not finite are all that keeps a node from
being read. -/
theorem restores_toJson {n : Node} (h : n.Storable) (room : Nat) :
    Restores (ofJson? room n.toJson) n
      ((∀ e ∈ n.attrs.entries, e.2.toJson.depth ≤ room - 2) ∧
        (∀ x ∈ n.doubles, x.isFinite = true) ∧ ∀ x ∈ n.singles, x.isFinite = true)
      ((∀ x ∈ n.doubles, x.ReadBack) ∧ ∀ x ∈ n.singles, x.ReadBack) := by
  have hattrs := Restores.dict (Attr.ofJson? (room - 2)) Attr.toJson
    (fun a => a.toJson.depth ≤ room - 2 ∧ ∀ x ∈ a.doubles, x.isFinite = true)
    (fun a => ∀ x ∈ a.doubles, x.ReadBack) h.attrs.ordered
    fun e he => Attr.restores_toJson (h.attrs.values e he) (room - 2)
  have hdata := Restores.list Tensor.ofJson? Tensor.toJson _ _
    fun t ht => Tensor.restores_toJson (h.data.2 t ht)
  rw [ofJson?_toJson h, Attr.mapToJson_eq]
  refine (hattrs.both hdata fun attrs data => { n with attrs, data }).congr ?_ ?_
  · rw [doubles, singles, Attr.forall_mem_mapDoubles, List.forall_mem_flatMap, ← and_assoc,
      ← forall₂_and]
  · rw [doubles, singles, Attr.forall_mem_mapDoubles, List.forall_mem_flatMap]
    exact id

/-- Only attributes may nest deeper than any node does. -/
theorem depth_toJson_le {n : Node} {k : Nat} (hk : 3 ≤ k) :
    n.toJson.depth ≤ k + 2 ↔ ∀ e ∈ n.attrs.entries, e.2.toJson.depth ≤ k := by
  have htexts : ∀ ss, (texts ss).depth ≤ k + 1 := fun ss => by
    rw [depth_texts]
    omega
  have hshapes : n.shapes.toJson.depth ≤ k + 1 := n.shapes.depth_toJson_le.trans (by omega)
  have hdata : (arr (n.data.map Tensor.toJson)).depth ≤ k + 1 :=
    depth_arr_le.2 (List.forall_mem_map.2 fun t _ => t.depth_toJson_le.trans hk)
  have hsubgraph : ((n.subgraph.map Json.text).getD .null).depth ≤ k + 1 := by
    cases n.subgraph <;> exact Nat.zero_le _
  have hattrs : (Attr.mapToJson n.attrs).depth ≤ k + 1 ↔
      ∀ e ∈ n.attrs.entries, e.2.toJson.depth ≤ k := by
    rw [Attr.mapToJson_eq, Dict.toJson, depth_record_le, List.forall_mem_map]
  have htext : ∀ s, (Json.text s).depth ≤ k + 1 := fun _ => Nat.zero_le _
  have hbool : ∀ b, (Json.bool b).depth ≤ k + 1 := fun _ => Nat.zero_le _
  rw [toJson, depth_record_le, ← hattrs]
  simp only [List.forall_mem_cons, List.not_mem_nil, false_implies, implies_true, htexts, hshapes,
    hdata, hsubgraph, htext, hbool, true_and, and_true]

end Node

/-! ## Artifacts -/

theorem Artifact.ofJson?_toJson {a : Artifact} (h : a.Storable) : ofJson? a.toJson = some a := by
  have hfields : a.toJson.fields? ["in_map", "out_map"] =
      some [some (a.inMap.toJson .text), some (a.outMap.toJson .text)] :=
    fields?_record rfl (by decide)
  rw [ofJson?, hfields]
  simp only [Option.bind_eq_bind, Option.bind_some, required?]
  rw [Dict.ofJson?_toJson h.inMap.ordered fun _ _ => rfl,
    Dict.ofJson?_toJson h.outMap.ordered fun _ _ => rfl]
  rfl

theorem Artifact.spelled_toJson (a : Artifact) : a.toJson.Spelled := by
  have hmap : ∀ d : Dict String, (d.toJson .text).Spelled := fun d =>
    spelled_record (List.forall_mem_map.2 fun e _ => spelled_text e.2)
  refine spelled_record ?_
  simp only [List.forall_mem_cons]
  exact ⟨hmap _, hmap _, by simp⟩

theorem Artifact.depth_toJson_le (a : Artifact) : a.toJson.depth ≤ 2 := by
  have hmap : ∀ d : Dict String, (d.toJson .text).depth ≤ 1 := fun d =>
    depth_record_le.2 (List.forall_mem_map.2 fun _ _ => Nat.le_refl 0)
  refine depth_record_le.2 ?_
  simp only [List.forall_mem_cons]
  exact ⟨hmap _, hmap _, by simp⟩

namespace CompilerOutput

theorem ofJson?_toJson {o : CompilerOutput} (h : o.Storable) : ofJson? o.toJson = some o := by
  have hfields : o.toJson.fields? ["artifacts"] = some [some (o.artifacts.toJson (·.toJson))] :=
    fields?_record rfl (by decide)
  rw [ofJson?, hfields]
  simp only [Option.bind_eq_bind, Option.bind_some, required?]
  have hentries : Entries Artifact.Storable o.artifacts := h
  rw [Dict.ofJson?_toJson hentries.ordered fun e he =>
    Artifact.ofJson?_toJson (hentries.values e he)]
  rfl

theorem spelled_toJson (o : CompilerOutput) : o.toJson.Spelled := by
  refine spelled_record ?_
  simp only [List.forall_mem_cons]
  exact ⟨spelled_record (List.forall_mem_map.2 fun e _ => e.2.spelled_toJson), by simp⟩

theorem depth_toJson_le (o : CompilerOutput) : o.toJson.depth ≤ 4 := by
  rw [toJson, depth_case]
  exact Nat.succ_le_succ
    (depth_record_le.2 (List.forall_mem_map.2 fun e _ => e.2.depth_toJson_le))

end CompilerOutput

/-! ## Graphs -/

namespace Graph

def doubles (g : Graph) : List Double := g.nodes.flatMap Node.doubles

def singles (g : Graph) : List Single := g.nodes.flatMap Node.singles

def depth (g : Graph) : Nat := (StoredGraph.ofGraph g).toJson.depth

theorem spelled_toJson {g : Graph} (h : g.Storable) : (StoredGraph.ofGraph g).toJson.Spelled := by
  have houtput : ((g.compilerOutput.map CompilerOutput.toJson).getD .null).Spelled := by
    cases g.compilerOutput with
    | none => exact .null
    | some o => exact o.spelled_toJson
  refine spelled_record ?_
  simp only [List.forall_mem_cons, List.not_mem_nil, false_implies, implies_true, and_true]
  exact ⟨spelled_text _, spelled_text _,
    spelled_arr_map fun n hn => Node.spelled_toJson (h.nodes.2 n hn), houtput⟩

theorem depth_le {g : Graph} {k : Nat} (hk : 3 ≤ k) :
    g.depth ≤ k + 2 + 2 ↔
      ∀ n ∈ g.nodes, ∀ e ∈ n.attrs.entries, e.2.toJson.depth ≤ k := by
  have houtput : ((g.compilerOutput.map CompilerOutput.toJson).getD .null).depth ≤ k + 2 + 1 := by
    cases g.compilerOutput with
    | none => exact Nat.zero_le _
    | some o => exact o.depth_toJson_le.trans (by omega)
  have htext : ∀ s, (Json.text s).depth ≤ k + 2 + 1 := fun _ => Nat.zero_le _
  have hnodes : (arr (g.nodes.map Node.toJson)).depth ≤ k + 2 + 1 ↔
      ∀ n ∈ g.nodes, ∀ e ∈ n.attrs.entries, e.2.toJson.depth ≤ k := by
    rw [depth_arr_le, List.forall_mem_map]
    exact forall₂_congr fun n _ => Node.depth_toJson_le hk
  rw [depth, StoredGraph.toJson, depth_record_le, ← hnodes]
  simp only [List.forall_mem_cons, List.not_mem_nil, false_implies, implies_true,
    StoredGraph.ofGraph, houtput, htext, true_and, and_true]

/-- Only the nodes of a graph can fail to be read. -/
theorem ofJson?_toJson {g : Graph} (h : g.Storable) :
    StoredGraph.ofJson? (StoredGraph.ofGraph g).toJson =
      (listOf? (Node.ofJson? (nesting - 2)) (arr (g.nodes.map Node.toJson))).map fun nodes =>
        { StoredGraph.ofGraph g with nodes } := by
  have hfields : (StoredGraph.ofGraph g).toJson.fields?
      ["format_version", "name", "nodes", "compiler_output"] = some ([
        .text StoredGraph.currentVersion, .text g.name, .arr (g.nodes.map Node.toJson),
        (g.compilerOutput.map CompilerOutput.toJson).getD .null].map some) :=
    fields?_record rfl (by decide)
  have houtput : option? CompilerOutput.ofJson?
      ((g.compilerOutput.map CompilerOutput.toJson).getD .null) = some g.compilerOutput := by
    have hs := h.compilerOutput
    revert hs
    cases g.compilerOutput with
    | none => exact fun _ => rfl
    | some o =>
        exact fun hs => congrArg (Option.map some) (CompilerOutput.ofJson?_toJson (hs o rfl))
  rw [StoredGraph.ofJson?, hfields]
  simp only [List.map_cons, List.map_nil, Option.bind_eq_bind, Option.bind_some, required?,
    optional?, asText?_text, houtput]
  cases listOf? (Node.ofJson? (nesting - 2)) (arr (g.nodes.map Node.toJson)) <;> rfl

/-- The text is read as the nodes that are read from it one by one. -/
theorem ofText_eq {g : Graph} (h : g.Storable) : ofText g.toText =
    match listOf? (Node.ofJson? (nesting - 2)) (arr (g.nodes.map Node.toJson)) with
    | none => .error (.format .notJson)
    | some nodes => (ofNodes g.name nodes g.compilerOutput).mapError .graph := by
  rw [ofText, toText, parse?_pretty (spelled_toJson h), Option.bind_some, ofJson?_toJson h]
  cases listOf? (Node.ofJson? (nesting - 2)) (arr (g.nodes.map Node.toJson)) with
  | none => rfl
  | some nodes => exact if_pos rfl

/-- What keeps the nodes of a graph from being read, and what keeps them as they are. -/
theorem restores_nodes {g : Graph} (h : g.Storable) :
    Restores (listOf? (Node.ofJson? (nesting - 2)) (arr (g.nodes.map Node.toJson))) g.nodes
      (g.depth ≤ nesting ∧ (∀ x ∈ g.doubles, x.isFinite = true) ∧
        ∀ x ∈ g.singles, x.isFinite = true)
      ((∀ x ∈ g.doubles, x.ReadBack) ∧ ∀ x ∈ g.singles, x.ReadBack) := by
  have hnodes := Restores.list (Node.ofJson? (nesting - 2)) Node.toJson _ _
    fun n hn => Node.restores_toJson (h.nodes.2 n hn) (nesting - 2)
  have hdepth : g.depth ≤ nesting ↔
      ∀ n ∈ g.nodes, ∀ e ∈ n.attrs.entries, e.2.toJson.depth ≤ nesting - 2 - 2 :=
    depth_le (k := nesting - 2 - 2) (by decide)
  refine hnodes.congr ?_ ?_
  · rw [hdepth, doubles, singles, List.forall_mem_flatMap, List.forall_mem_flatMap, ← forall₂_and,
      ← forall₂_and]
  · rw [doubles, singles, List.forall_mem_flatMap, List.forall_mem_flatMap, ← forall₂_and]
    exact id

/-- Whatever the numbers are read as, the nodes make a graph. -/
theorem exists_ofNodes_of_read {g : Graph} (h : g.Storable) {room : Nat} {nodes : List Node}
    (hread : listOf? (Node.ofJson? room) (arr (g.nodes.map Node.toJson)) = some nodes) :
    ∃ g', ofNodes g.name nodes g.compilerOutput = .ok g' := by
  have hkept : nodes.map (fun n => (n.name, n.bottoms)) =
      g.nodes.map fun n => (n.name, n.bottoms) :=
    map_of_mapM_map hread fun n hn m hm => Node.name_bottoms_of_ofJson? (h.nodes.2 n hn) hm
  have hnames : nodes.map Node.name = g.nodes.map Node.name := by
    have hfst := congrArg (List.map Prod.fst) hkept
    rwa [List.map_map, List.map_map] at hfst
  refine exists_ofNodes_eq_ok _ _ (hnames ▸ g.nodup) fun n hn b hb => ?_
  obtain ⟨m, hm, he⟩ := List.mem_map.1 (hkept ▸ List.mem_map.2 ⟨n, hn, rfl⟩ :
    (n.name, n.bottoms) ∈ g.nodes.map fun n => (n.name, n.bottoms))
  rw [hnames]
  exact g.closed m hm b ((Prod.mk.inj he).2 ▸ hb)

/-- The text of a graph is accepted exactly when the reader follows it to the end of every attribute
and finds a number wherever there was one; a text that is refused is no JSON text of a graph. -/
theorem ofText_toText_cases {g : Graph} (h : g.Storable) :
    ((∃ g', ofText g.toText = .ok g') ↔ g.depth ≤ nesting ∧ (∀ x ∈ g.doubles, x.isFinite = true) ∧
      ∀ x ∈ g.singles, x.isFinite = true) ∧
    ((∃ g', ofText g.toText = .ok g') ∨ ofText g.toText = .error (.format .notJson)) := by
  rw [← (restores_nodes h).accepts, ofText_eq h]
  cases hread : listOf? (Node.ofJson? (nesting - 2)) (arr (g.nodes.map Node.toJson)) with
  | none => exact ⟨iff_of_false (fun ⟨_, h⟩ => nomatch h) Bool.false_ne_true, Or.inr rfl⟩
  | some nodes =>
      obtain ⟨g', hg'⟩ := exists_ofNodes_of_read h hread
      have hok : ∃ g', (ofNodes g.name nodes g.compilerOutput).mapError
          (@StorageError.graph TextError) = .ok g' := ⟨g', by rw [hg']; rfl⟩
      exact ⟨iff_of_true hok rfl, Or.inl hok⟩

/-- The bytes of a text hold this text. -/
theorem ofFile_toUTF8 (text : String) : ofFile text.toUTF8 = ofText text := by
  have htext : String.fromUTF8? text.toUTF8 = some text := dif_pos text.isValidUTF8
  rw [ofFile, htext]

/-- The text loses nothing. A graph is read back from its text as it was, its nodes in the same
order, when the text nests no deeper than the reader follows and every floating point number is
read back as itself, which only finite numbers are. -/
theorem ofText_toText {g : Graph} (h : g.Storable) (hdepth : g.depth ≤ nesting)
    (hdoubles : ∀ x ∈ g.doubles, x.ReadBack) (hsingles : ∀ x ∈ g.singles, x.ReadBack) :
    ofText g.toText = .ok g := by
  have hnodes := (restores_nodes h).same
    ⟨hdepth, fun x hx => (hdoubles x hx).isFinite, fun x hx => (hsingles x hx).isFinite⟩
    ⟨hdoubles, hsingles⟩
  rw [ofText_eq h, hnodes]
  dsimp only
  rw [ofNodes_self]
  rfl

/-- A node whose texts need escapes, with nested attributes, numbers at the ends of their ranges and
a tensor. -/
def escapedNode : Node where
  name := "π \"\\\n\x07"
  types := ["Input", "Output"]
  shapes := .tuple [⟨[-1, 3]⟩, ⟨[]⟩]
  attrs := ⟨[("bounds", .map ⟨[("ends", .ints [-9223372036854775808, 9223372036854775807]),
    ("rest", .map ⟨[("tenth", .floats [⟨0x3FB999999999999A⟩])]⟩)]⟩),
    ("scale", .float ⟨0x7FEFFFFFFFFFFFFF⟩)]⟩
  data := [⟨[18446744073709551615, 0], [⟨0x3DCCCCCD⟩]⟩]
  subgraph := some "p"

theorem storable_escapedNode : escapedNode.Storable := by
  have hrest : (Attr.map ⟨[("tenth", .floats [⟨0x3FB999999999999A⟩])]⟩).Storable := by
    refine .map (by decide +kernel) (by decide) (by decide +kernel) ?_
    exact List.forall_mem_singleton.2 (.floats (by decide))
  have hbounds : (Attr.map ⟨[("ends", .ints [-9223372036854775808, 9223372036854775807]),
      ("rest", .map ⟨[("tenth", .floats [⟨0x3FB999999999999A⟩])]⟩)]⟩).Storable := by
    refine .map (by decide +kernel) (by decide) (by decide +kernel) ?_
    exact List.forall_mem_cons.2 ⟨.ints (by decide), List.forall_mem_singleton.2 hrest⟩
  exact {
    name := by decide +kernel
    types := by decide +kernel
    shapes := show Items TensorShape.Storable [⟨[-1, 3]⟩, ⟨[]⟩] by decide
    bottoms := by decide
    tops := by decide
    layer := by decide
    attrs :=
      { ordered := by decide +kernel
        length := by decide
        keys := by decide +kernel
        values := List.forall_mem_cons.2 ⟨hbounds, List.forall_mem_singleton.2 (.float _)⟩ }
    data := ⟨by decide, List.forall_mem_singleton.2 ⟨by decide, by decide⟩⟩
    subgraph := by decide +kernel
    target := by decide +kernel }

theorem ofText_toText_escapedNode : ∃ g : Graph, (g.nodes = [escapedNode] ∧
    g.compilerOutput.isSome = true) ∧ g.Storable ∧ g.depth ≤ nesting ∧
      (∀ x ∈ g.doubles, x.ReadBack) ∧ (∀ x ∈ g.singles, x.ReadBack) ∧ ofText g.toText = .ok g := by
  let artifact : Artifact := ⟨⟨[("in", "arg0")]⟩, ⟨[("π", "res0")]⟩⟩
  let g : Graph := ⟨"escaped", [escapedNode], some ⟨⟨[("p", artifact)]⟩⟩, by decide, by decide⟩
  have hartifact : artifact.Storable :=
    ⟨⟨by decide +kernel, by decide, by decide +kernel, by decide +kernel⟩,
      ⟨by decide +kernel, by decide, by decide +kernel, by decide +kernel⟩⟩
  have hg : g.Storable :=
    { name := by decide +kernel
      nodes := ⟨by decide, List.forall_mem_singleton.2 storable_escapedNode⟩
      compilerOutput := by
        rintro o ⟨⟩
        exact ⟨by decide +kernel, by decide, by decide +kernel,
          List.forall_mem_singleton.2 hartifact⟩ }
  have hdepth : g.depth ≤ nesting := by decide +kernel
  have hdoubles : ∀ x ∈ g.doubles, x.ReadBack := by decide +kernel
  have hsingles : ∀ x ∈ g.singles, x.ReadBack := by decide +kernel
  exact ⟨g, ⟨rfl, rfl⟩, hg, hdepth, hdoubles, hsingles, ofText_toText hg hdepth hdoubles hsingles⟩

/-- A graph that cannot be read back is not refused when it is written: it has a text, but the
reader takes this for no graph. The text of a graph is accepted, from a file as well, exactly when
the graph nests no deeper than the reader follows and all its floating point numbers are finite. -/
theorem toText_accepted_iff {g : Graph} (h : g.Storable) :
    ((∃ g', ofText g.toText = .ok g') ↔ g.depth ≤ nesting ∧
      (∀ x ∈ g.doubles, x.isFinite = true) ∧ ∀ x ∈ g.singles, x.isFinite = true) ∧
    ((¬∃ g', ofText g.toText = .ok g') → ofText g.toText = .error (.format .notJson)) ∧
    ofFile g.toText.toUTF8 = ofText g.toText := by
  obtain ⟨haccepts, hcases⟩ := ofText_toText_cases h
  exact ⟨haccepts, hcases.resolve_left, ofFile_toUTF8 g.toText⟩

def overflownNode : Node where
  name := "w"
  types := ["Constant"]
  shapes := .tensor ⟨[1]⟩
  data := [⟨[1], [⟨0x7F800000⟩]⟩]

def infiniteWeight : Graph := ⟨"weights", [overflownNode], none, by decide, by decide⟩

theorem storable_infiniteWeight : infiniteWeight.Storable where
  name := by decide +kernel
  nodes := by
    refine ⟨by decide, List.forall_mem_singleton.2 ?_⟩
    exact {
      name := by decide +kernel
      types := by decide +kernel
      shapes := show Items Integer [1] by decide
      bottoms := by decide
      tops := by decide
      layer := by decide
      attrs := ⟨by decide, by decide, by decide, fun _ he => by cases he⟩
      data := ⟨by decide, List.forall_mem_singleton.2 ⟨by decide, by decide⟩⟩
      subgraph := by decide
      target := by decide +kernel }
  compilerOutput := fun _ ho => by cases ho

theorem toText_accepted_infiniteWeight : infiniteWeight.Storable ∧
    ((∃ g', ofText infiniteWeight.toText = .ok g') ↔ infiniteWeight.depth ≤ nesting ∧
      (∀ x ∈ infiniteWeight.doubles, x.isFinite = true) ∧
        ∀ x ∈ infiniteWeight.singles, x.isFinite = true) ∧
    ((¬∃ g', ofText infiniteWeight.toText = .ok g') →
      ofText infiniteWeight.toText = .error (.format .notJson)) ∧
    ofFile infiniteWeight.toText.toUTF8 = ofText infiniteWeight.toText :=
  ⟨storable_infiniteWeight, toText_accepted_iff storable_infiniteWeight⟩

/-- The infinite weight is written, and the text is refused. -/
theorem infiniteWeight_lost : infiniteWeight.Storable ∧
    ofText infiniteWeight.toText = .error (.format .notJson) ∧
    ofFile infiniteWeight.toText.toUTF8 = .error (.format .notJson) := by
  obtain ⟨haccepts, hcases⟩ := ofText_toText_cases storable_infiniteWeight
  have hinfinite : ¬∀ x ∈ infiniteWeight.singles, x.isFinite = true := by decide
  have hrefused := hcases.resolve_left fun h => hinfinite (haccepts.1 h).2.2
  exact ⟨storable_infiniteWeight, hrefused, (ofFile_toUTF8 _).trans hrefused⟩

end Graph

end Dataflow
