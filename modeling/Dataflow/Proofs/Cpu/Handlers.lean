import Dataflow.Cpu.Lowering
import Dataflow.Proofs.Dict
import Dataflow.Proofs.Outcome
import Dataflow.Proofs.Program.Stages

/-!
# Handlers of the reference backend

What each handler makes of a node: one operation under the node's name. Most handlers look at the
node alone. Those of inputs depend on the batch size as well, and those of accessors and tuples on
the shapes of the nodes that are read. No handler looks at the readers of a node.
-/

namespace Dataflow.Kernel

/-! ## Inputs of kernels -/

variable {opType name : String} {inputs : List Value} {v : Value} {t : Tensor}

theorem asTensor_eq_ok : asTensor v = .ok t ↔ v = .tensor t := by
  cases v with
  | tensor u =>
      constructor
      · intro h
        cases h
        rfl
      · intro h
        cases h
        rfl
  | tuple items => exact ⟨nofun, nofun⟩

theorem one_eq_ok : one opType name inputs = .ok v ↔ inputs = [v] := by
  unfold one
  split
  · simp
  · next hne => exact ⟨nofun, fun h => absurd h (hne v)⟩

theorem oneTensor_eq_ok : oneTensor opType name inputs = .ok t ↔ inputs = [.tensor t] := by
  unfold oneTensor
  simp only [Outcome.bind_eq_ok, one_eq_ok, asTensor_eq_ok]
  constructor
  · rintro ⟨_, rfl, rfl⟩
    rfl
  · rintro rfl
    exact ⟨_, rfl, rfl⟩

theorem two_eq_ok {w : Value} : two opType name inputs = .ok (v, w) ↔ inputs = [v, w] := by
  unfold two
  split
  · simp
  · next hne => exact ⟨nofun, fun h => absurd h (hne v w)⟩

theorem lift_eq_ok {x : Except (Failure TensorError) Tensor} : lift x = .ok t ↔ x = .ok t :=
  Outcome.mapError_eq_ok

end Dataflow.Kernel

namespace Dataflow.Cpu

variable {n : Node} {shape : String → Option Shapes} {params : Dict Tensor} {batch : Int}
  {o : Operation}

theorem orElse_eq_ok {α : Type} {x : Option α} {e : LoweringError} {a : α} :
    orElse x e = .ok a ↔ x = some a := by
  cases x <;> simp [orElse]

theorem natural_eq_ok {z : Int} {e : LoweringError} {k : Nat} :
    natural z e = .ok k ↔ z = (k : Int) := by
  unfold natural
  split
  · next h =>
    rw [Except.ok.injEq]
    omega
  · next h =>
    simp only [reduceCtorEq, false_iff]
    omega

/-! ## Kernels -/

abbrev Choice := Node → (params : Dict Tensor) → (batch : Int) → Option Kernel

def inputKernel : Choice := fun n _ batch =>
  n.shapes.asTensor?.map fun s => .input (s.withBatch batch)

def constantKernel : Choice := fun n params _ => (weight? n 0 params n.name).map .constant

def biasAddKernel : Choice := fun n params _ => do
  let bias ← weight? n 0 params (n.name ++ "_bias")
  let axis ← (((n.attr? "axis").bind Attr.asInt?).getD 1).toNat?
  return .biasAdd axis bias

def transposeKernel : Choice := fun n _ _ => do
  let axes ← (n.attr? "axes").bind Attr.asInts?
  return .transpose (← axes.mapM Int.toNat?)

def accessorKernel : Choice := fun n _ _ => do
  let index ← (n.attr? "index").bind Attr.asInt?
  return .element (← index.toNat?)

def convolutionKernel : Choice := fun n params _ => do
  let weights ← weight? n 0 params (n.name ++ "_weights")
  let bias := weight? n 1 params (n.name ++ "_biases")
  let strides ← (pairAttr n "strides" 1).toOption
  let padding ← (pairAttr n "padding" 0).toOption
  let dilation ← (pairAttr n "dilation" 1).toOption
  return .convolution { weights, bias, strides, padding, dilation }

/-! ## Handlers that look at the node alone -/

/-- The handler depends on neither shapes nor batch size, and its operation reads bottoms of the
node only. -/
structure Plain (h : Handler) : Prop where
  congr : ∀ n shape shape' params batch batch',
    h n shape params batch = h n shape' params batch'
  name_eq : ∀ {n shape params batch o}, h n shape params batch = .ok o → o.name = n.name
  inputs : ∀ {n shape params batch o}, h n shape params batch = .ok o →
    ∀ i ∈ o.inputs, i ∈ n.bottoms

theorem unary_eq_ok {k : Kernel} (h : unary k n shape params batch = .ok o) :
    o = k.operation n n.bottoms n.shapes := by
  unfold unary at h
  split at h
  · cases h
    rfl
  · cases h

theorem binary_eq_ok {k : Kernel} (h : binary k n shape params batch = .ok o) :
    o = k.operation n n.bottoms n.shapes := by
  unfold binary at h
  split at h
  · cases h
    rfl
  · cases h

theorem constant_eq_ok (h : constant n shape params batch = .ok o) :
    ∃ value, constantKernel n params batch = some (.constant value) ∧
      o = (Kernel.constant value).operation n [] n.shapes := by
  obtain ⟨value, hw, h⟩ := Outcome.bind_eq_ok.1 h
  cases h
  exact ⟨value, by rw [constantKernel, orElse_eq_ok.1 hw, Option.map_some], rfl⟩

theorem biasAdd_eq_ok (h : biasAdd n shape params batch = .ok o) :
    ∃ k, biasAddKernel n params batch = some k ∧
      o = Kernel.operation k n n.bottoms n.shapes := by
  obtain ⟨bias, hw, h⟩ := Outcome.bind_eq_ok.1 h
  obtain ⟨axis, ha, h⟩ := Outcome.bind_eq_ok.1 h
  refine ⟨_, ?_, unary_eq_ok h⟩
  rw [biasAddKernel, orElse_eq_ok.1 hw, natural_eq_ok.1 ha]
  rfl

theorem transpose_eq_ok (h : transpose n shape params batch = .ok o) :
    ∃ k, transposeKernel n params batch = some k ∧
      o = Kernel.operation k n n.bottoms n.shapes := by
  obtain ⟨axes, hw, h⟩ := Outcome.bind_eq_ok.1 h
  obtain ⟨sizes, hs, h⟩ := Outcome.bind_eq_ok.1 h
  refine ⟨_, ?_, unary_eq_ok h⟩
  have hsizes : axes.mapM Int.toNat? = some sizes := by
    rw [Outcome.mapM_eq_ok] at hs
    refine Outcome.mapM_eq_some.2 (hs.imp fun z k hz => ?_)
    rw [natural_eq_ok.1 hz]
    rfl
  rw [transposeKernel, orElse_eq_ok.1 hw, Option.bind_eq_bind, Option.bind_some, hsizes]
  rfl

theorem convolution_eq_ok (h : convolution n shape params batch = .ok o) :
    ∃ k, convolutionKernel n params batch = some k ∧
      o = Kernel.operation k n n.bottoms n.shapes := by
  obtain ⟨weights, hw, h⟩ := Outcome.bind_eq_ok.1 h
  obtain ⟨strides, hs, h⟩ := Outcome.bind_eq_ok.1 h
  obtain ⟨padding, hp, h⟩ := Outcome.bind_eq_ok.1 h
  obtain ⟨dilation, hd, h⟩ := Outcome.bind_eq_ok.1 h
  refine ⟨_, ?_, unary_eq_ok h⟩
  rw [convolutionKernel, orElse_eq_ok.1 hw, hs, hp, hd]
  rfl

theorem Plain.of_operation {h : Handler}
    (hc : ∀ n shape shape' params batch batch', h n shape params batch = h n shape' params batch')
    (ho : ∀ {n shape params batch o}, h n shape params batch = .ok o →
      ∃ (k : Kernel) (inputs : List String) (s : Shapes), (∀ i ∈ inputs, i ∈ n.bottoms) ∧
        o = k.operation n inputs s) :
    Plain h where
  congr := hc
  name_eq he := by
    obtain ⟨k, inputs, s, -, rfl⟩ := ho he
    rfl
  inputs he := by
    obtain ⟨k, inputs, s, hi, rfl⟩ := ho he
    exact hi

theorem plain_unary (k : Kernel) : Plain (unary k) :=
  .of_operation (fun _ _ _ _ _ _ => rfl)
    fun h => ⟨k, _, _, fun _ hi => hi, unary_eq_ok h⟩

theorem plain_binary (k : Kernel) : Plain (binary k) :=
  .of_operation (fun _ _ _ _ _ _ => rfl)
    fun h => ⟨k, _, _, fun _ hi => hi, binary_eq_ok h⟩

theorem plain_constant : Plain constant := by
  refine .of_operation (fun _ _ _ _ _ _ => rfl) fun h => ?_
  obtain ⟨value, -, rfl⟩ := constant_eq_ok h
  exact ⟨_, [], _, by simp, rfl⟩

theorem plain_biasAdd : Plain biasAdd := by
  refine .of_operation (fun _ _ _ _ _ _ => rfl) fun h => ?_
  obtain ⟨k, -, rfl⟩ := biasAdd_eq_ok h
  exact ⟨k, _, _, fun _ hi => hi, rfl⟩

theorem plain_transpose : Plain transpose := by
  refine .of_operation (fun _ _ _ _ _ _ => rfl) fun h => ?_
  obtain ⟨k, -, rfl⟩ := transpose_eq_ok h
  exact ⟨k, _, _, fun _ hi => hi, rfl⟩

theorem plain_convolution : Plain convolution := by
  refine .of_operation (fun _ _ _ _ _ _ => rfl) fun h => ?_
  obtain ⟨k, -, rfl⟩ := convolution_eq_ok h
  exact ⟨k, _, _, fun _ hi => hi, rfl⟩

/-! ## The other handlers -/

theorem input_eq_ok : input n shape params batch = .ok o ↔
    ∃ s, n.shapes = .tensor s ∧
      o = (Kernel.input (s.withBatch batch)).operation n [n.name]
        (.tensor (s.withBatch batch)) := by
  unfold input
  rw [Outcome.bind_eq_ok]
  constructor
  · rintro ⟨s, hs, ho⟩
    cases ho
    cases hn : n.shapes with
    | tensor s' =>
        rw [hn] at hs
        cases hs
        exact ⟨s, rfl, rfl⟩
    | tuple items =>
        rw [hn] at hs
        cases hs
  · rintro ⟨s, hs, rfl⟩
    rw [hs]
    exact ⟨s, rfl, rfl⟩

def elementShape (n : Node) (shape : String → Option Shapes) (source : String) (index : Nat) :
    Shapes :=
  ((((shape source).bind (·.get? index)).map Shapes.tensor).getD n.shapes)

theorem accessor_eq_ok : accessor n shape params batch = .ok o ↔
    ∃ index : Nat, (n.attr? "index").bind Attr.asInt? = some (index : Int) ∧
      ∃ source, n.bottoms = [source] ∧
        o = (Kernel.element index).operation n [source] (elementShape n shape source index) := by
  unfold accessor
  rw [Outcome.bind_eq_ok]
  constructor
  · rintro ⟨z, hz, h⟩
    obtain ⟨index, hi, h⟩ := Outcome.bind_eq_ok.1 h
    unfold natural at hi
    split at hi
    · next hpos =>
      cases hi
      refine ⟨z.toNat, by rw [orElse_eq_ok.1 hz, Int.toNat_of_nonneg hpos], ?_⟩
      split at h
      · next source hb =>
        cases h
        exact ⟨source, hb, by rw [hb]; rfl⟩
      · cases h
    · cases hi
  · rintro ⟨index, hz, source, hb, rfl⟩
    refine ⟨index, orElse_eq_ok.2 hz, Outcome.bind_eq_ok.2 ⟨index, ?_, ?_⟩⟩
    · simp [natural]
    · rw [hb]
      rfl

theorem tuple_eq_ok : tuple n shape params batch = .ok o ↔
    ∃ items, List.Forall₂ (fun b s => shape b = some (.tensor s)) n.bottoms items ∧
      o = Kernel.tuple.operation n n.bottoms (.tuple items) := by
  have hs : ∀ b s, orElse ((shape b).bind Shapes.asTensor?) (.notATensor n.name b) = .ok s ↔
      shape b = some (.tensor s) := by
    intro b s
    rw [orElse_eq_ok, Option.bind_eq_some_iff]
    constructor
    · rintro ⟨S, hS, he⟩
      cases S with
      | tensor s' => cases he; exact hS
      | tuple items => cases he
    · exact fun h => ⟨_, h, rfl⟩
  unfold tuple
  rw [Outcome.bind_eq_ok]
  simp only [Outcome.mapM_eq_ok, hs]
  constructor
  · rintro ⟨items, hi, ho⟩
    cases ho
    exact ⟨items, hi, rfl⟩
  · rintro ⟨items, hi, rfl⟩
    exact ⟨items, hi, rfl⟩

/-! ## The table -/

theorem handlers_cases {t : String} {h : Handler} (hm : (t, h) ∈ handlers) :
    (t ∈ Node.inputTypes ∧ h = input) ∨ (t ∉ Node.inputTypes ∧
      (Plain h ∨ h = accessor ∨ h = tuple)) := by
  have hin : ∀ t, t ∈ Node.inputTypes ↔ t = "Input" ∨ t = "StrInput" := by
    simp [Node.inputTypes]
  simp only [handlers, List.mem_cons, Prod.mk.injEq, List.not_mem_nil, or_false] at hm
  rcases hm with ⟨rfl, rfl⟩ | ⟨rfl, rfl⟩ | ⟨rfl, rfl⟩ | ⟨rfl, rfl⟩ | ⟨rfl, rfl⟩ | ⟨rfl, rfl⟩ |
    ⟨rfl, rfl⟩ | ⟨rfl, rfl⟩ | ⟨rfl, rfl⟩ | ⟨rfl, rfl⟩ | ⟨rfl, rfl⟩ | ⟨rfl, rfl⟩ | ⟨rfl, rfl⟩
  · exact Or.inl ⟨by simp [hin], rfl⟩
  · exact Or.inl ⟨by simp [hin], rfl⟩
  · exact Or.inr ⟨by simp [hin], Or.inl plain_constant⟩
  · exact Or.inr ⟨by simp [hin], Or.inl (plain_binary _)⟩
  · exact Or.inr ⟨by simp [hin], Or.inl (plain_binary _)⟩
  · exact Or.inr ⟨by simp [hin], Or.inl (plain_binary _)⟩
  · exact Or.inr ⟨by simp [hin], Or.inl (plain_unary _)⟩
  · exact Or.inr ⟨by simp [hin], Or.inl (plain_unary _)⟩
  · exact Or.inr ⟨by simp [hin], Or.inl plain_biasAdd⟩
  · exact Or.inr ⟨by simp [hin], Or.inl plain_transpose⟩
  · exact Or.inr ⟨by simp [hin, Node.accessorType], Or.inr (Or.inl rfl)⟩
  · exact Or.inr ⟨by simp [hin], Or.inr (Or.inr rfl)⟩
  · exact Or.inr ⟨by simp [hin, Operation.calibratedType], Or.inl plain_convolution⟩

theorem handler_tops {t : String} {h : Handler} (hm : (t, h) ∈ handlers) (n : Node)
    (tops : List String) (shape : String → Option Shapes) (params : Dict Tensor) (batch : Int) :
    h { n with tops } shape params batch = h n shape params batch := by
  simp only [handlers, List.mem_cons, Prod.mk.injEq, List.not_mem_nil, or_false] at hm
  rcases hm with ⟨-, rfl⟩ | ⟨-, rfl⟩ | ⟨-, rfl⟩ | ⟨-, rfl⟩ | ⟨-, rfl⟩ | ⟨-, rfl⟩ | ⟨-, rfl⟩ |
    ⟨-, rfl⟩ | ⟨-, rfl⟩ | ⟨-, rfl⟩ | ⟨-, rfl⟩ | ⟨-, rfl⟩ | ⟨-, rfl⟩ <;> rfl

theorem handler_congr {t : String} {h : Handler} (hm : (t, h) ∈ handlers)
    {known : String → Option Shapes} (hk : ∀ b ∈ n.bottoms, known b = shape b)
    (ho : h n shape params batch = .ok o) : h n known params batch = .ok o := by
  rcases handlers_cases hm with ⟨-, rfl⟩ | ⟨-, hp | rfl | rfl⟩
  · exact ho
  · rw [hp.congr n known shape params batch batch, ho]
  · obtain ⟨index, hi, source, hb, rfl⟩ := accessor_eq_ok.1 ho
    refine accessor_eq_ok.2 ⟨index, hi, source, hb, ?_⟩
    have hs : source ∈ n.bottoms := by rw [hb, List.mem_singleton]
    rw [elementShape, elementShape, hk source hs]
  · obtain ⟨items, hi, rfl⟩ := tuple_eq_ok.1 ho
    refine tuple_eq_ok.2 ⟨items, ?_, rfl⟩
    exact ((List.forall₂_and_left _ _).2 ⟨hk, hi⟩).imp fun b s hs => hs.1.trans hs.2

theorem lowersTo_of_handler {h : Handler} (hm : (n.opType, h) ∈ handlers)
    (ho : h n shape params batch = .ok o) : n.LowersTo o := by
  rcases handlers_cases hm with ⟨hin, rfl⟩ | ⟨-, hp | rfl | rfl⟩
  · obtain ⟨s, -, rfl⟩ := input_eq_ok.1 ho
    refine ⟨rfl, fun i hi => Or.inr ⟨by simpa [Node.isInput] using hin, ?_⟩⟩
    exact List.mem_singleton.1 hi
  · exact ⟨hp.name_eq ho, fun i hi => Or.inl (hp.inputs ho i hi)⟩
  · obtain ⟨index, -, source, hb, rfl⟩ := accessor_eq_ok.1 ho
    exact ⟨rfl, fun i hi => Or.inl (hb ▸ hi)⟩
  · obtain ⟨items, -, rfl⟩ := tuple_eq_ok.1 ho
    exact ⟨rfl, fun i hi => Or.inl hi⟩

theorem handlers_foldl_register (hs : List (String × Handler)) (t : DispatchTable) :
    (hs.foldl (fun t h => t.register h.1 h.2.lowering) t).handlers =
      (hs.map fun h => (h.1, h.2.lowering)).foldl (fun d e => d.insert e.1 e.2) t.handlers := by
  induction hs generalizing t with
  | nil => rfl
  | cons h hs ih => exact ih _

theorem table_get? {t : String} {l : Lowering} :
    table.get? t = some l ↔ ∃ h, (t, h) ∈ handlers ∧ l = Handler.lowering h := by
  have hd : ((handlers.map fun h => (h.1, h.2.lowering)).map Prod.fst).Nodup := by
    rw [List.map_map]
    decide
  have ht : table.handlers = Dict.ofList (handlers.map fun h => (h.1, h.2.lowering)) :=
    handlers_foldl_register handlers .empty
  rw [DispatchTable.get?, ht, Dict.get?_ofList hd, List.mem_map]
  constructor
  · rintro ⟨⟨t', h⟩, hm, he⟩
    cases he
    exact ⟨h, hm, rfl⟩
  · rintro ⟨h, hm, rfl⟩
    exact ⟨(t, h), hm, rfl⟩

theorem lowering_eq_ok {h : Handler} {os : List Operation} :
    h.lowering n shape params batch = .ok os ↔
      ∃ o, h n shape params batch = .ok o ∧ os = [o] := by
  unfold Handler.lowering
  rw [Outcome.mapError_eq_ok, Outcome.map_eq_ok]
  exact exists_congr fun o => and_congr_right fun _ => eq_comm

/-! ## Lowered nodes -/

open Program

variable {name : String} {nodes : List Node} {r : Recipe} {p : Program}

theorem exists_operation_of_lower (hl : lower name nodes r = .ok p) (ht : r.table = table)
    {s : Stage} (hs : s ∈ p.stages) : s.node.name ∉ s.node.bottoms ∧
    ∃ h known o, (s.node.opType, h) ∈ handlers ∧ h s.node known r.params r.batch = .ok o ∧
      s.operations = [o] ∧
        ∀ b ∈ s.node.bottoms, ∃ S, known b = some S ∧ shapeOf p.stages b = some S := by
  obtain ⟨hown, handler, known, hget, hok, hknown⟩ := exists_handler_of_lower hl hs
  rw [ht, table_get?] at hget
  obtain ⟨h, hm, rfl⟩ := hget
  obtain ⟨o, hok, hops⟩ := lowering_eq_ok.1 hok
  exact ⟨hown, h, known, o, hm, hok, hops, hknown⟩

theorem exists_handler_of_operation (hl : lower name nodes r = .ok p) (ht : r.table = table)
    (ho : o ∈ p.operations) : ∃ n ∈ nodes, ∃ h known, (n.opType, h) ∈ handlers ∧
      h n known r.params r.batch = .ok o := by
  obtain ⟨s, hs, hmem⟩ := List.mem_flatMap.1 ho
  obtain ⟨-, h, known, o', hm, hok, hops, -⟩ := exists_operation_of_lower hl ht hs
  rw [hops, List.mem_singleton] at hmem
  subst hmem
  have hn : s.node ∈ nodes := map_node_stages hl ▸ List.mem_map_of_mem hs
  exact ⟨s.node, hn, h, known, hm, hok⟩

theorem simple_of_lower (hl : lower name nodes r = .ok p) (ht : r.table = table) :
    ∀ s ∈ p.stages, Simple s := by
  intro s hs
  obtain ⟨-, h, known, o, hm, hok, hops, -⟩ := exists_operation_of_lower hl ht hs
  exact ⟨o, hops, lowersTo_of_handler hm hok⟩

/-- The operations have the names of the nodes and may be run one after the other. -/
theorem scoped_of_lower (hl : lower name nodes r = .ok p) (ht : r.table = table) :
    Scoped [] p.operations ∧ p.operations.map Operation.name = nodes.map Node.name := by
  obtain ⟨hd, ho⟩ := ordered_of_lower hl
  have hnodes := map_node_stages hl
  have hnames : p.stages.map (·.node.name) = nodes.map Node.name := by
    rw [← hnodes, List.map_map]
    rfl
  have hsimple := simple_of_lower hl ht
  refine ⟨scoped_operations hsimple (hnames ▸ hd) (by simp) (hnodes ▸ ho), ?_⟩
  rw [operations, map_name_operations hsimple, hnames]

end Dataflow.Cpu
