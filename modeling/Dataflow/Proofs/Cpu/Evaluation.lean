import Dataflow.Proofs.Cpu.Handlers
import Dataflow.Proofs.Graph.Cycles
import Dataflow.Proofs.Graph.Validity
import Mathlib.Data.List.Perm.Subperm

/-!
# Evaluation without an order

The value of a node is a function of the nodes it reads: its kernel, applied to their values. This
function knows nothing of the order in which nodes are listed, of the shapes that lowering passes
on, or of the store of a run. A run of the reference backend that comes to its end has computed the
value of every node in this sense.

Lowering does not depend on the order either. A handler looks at the shapes of bottoms only, which
stand in front of the node in any order, so the nodes become the same operations.
-/

namespace Dataflow.Cpu

open Program Relation

variable {n : Node} {nodes nodes' : List Node} {params feed : Dict Tensor} {batch : Int}
  {o : Operation} {env : String → Option Value} {k : Kernel} {p p' : Program} {name name' : String}
  {r : Recipe} {store : Store}

/-! ## The kernel of a node -/

def always (k : Kernel) : Choice := fun _ _ _ => some k

def kernels : List (String × Choice) :=
  [("Input", inputKernel), ("StrInput", inputKernel), ("Constant", constantKernel),
    ("Add", always .add), ("Eltwise", always .add), ("Multiply", always .multiply),
    ("ReLU", always .relu), ("Identity", always .identity), ("BiasAdd", biasAddKernel),
    ("Transpose", transposeKernel), (Node.accessorType, accessorKernel), ("Tuple", always .tuple),
    (Operation.calibratedType, convolutionKernel)]

def kernel? : Choice := fun n params batch =>
  (kernels.lookup n.opType).bind fun choose => choose n params batch

/-- The operation applies the kernel of the node to what is supplied to an input node, and to the
values of the bottoms of another node, for which a constant has no use. -/
def Applies (n : Node) (params : Dict Tensor) (batch : Int) (o : Operation) : Prop :=
  ∃ k inputs S, kernel? n params batch = some k ∧ o = k.operation n inputs S ∧
    ((n.isInput = true ∧ inputs = [n.name]) ∨
      (n.isInput = false ∧ (inputs = n.bottoms ∨ inputs = [] ∧ ∃ value, k = .constant value)))

theorem kernel?_of_opType {t : String} {choose : Choice} (ht : n.opType = t)
    (hc : kernels.lookup t = some choose) : kernel? n params batch = choose n params batch := by
  rw [kernel?, ht, hc, Option.bind_some]

theorem isInput_eq_false {t : String} (ht : n.opType = t) (hin : t ∉ Node.inputTypes) :
    n.isInput = false := by
  rw [Node.isInput, ht]
  simpa using hin

theorem applies_of_bottoms {t : String} {choose : Choice} {S : Shapes} (ht : n.opType = t)
    (hc : kernels.lookup t = some choose) (hin : t ∉ Node.inputTypes)
    (hk : choose n params batch = some k ∧ o = k.operation n n.bottoms S) :
    Applies n params batch o :=
  ⟨k, n.bottoms, S, (kernel?_of_opType ht hc).trans hk.1, hk.2,
    Or.inr ⟨isInput_eq_false ht hin, Or.inl rfl⟩⟩

theorem applies_of_input {t : String} {shape : String → Option Shapes} (ht : n.opType = t)
    (hc : kernels.lookup t = some inputKernel) (hin : t ∈ Node.inputTypes)
    (ho : input n shape params batch = .ok o) : Applies n params batch o := by
  obtain ⟨s, hs, rfl⟩ := input_eq_ok.1 ho
  refine ⟨_, [n.name], _, (kernel?_of_opType ht hc).trans ?_, rfl, Or.inl ⟨?_, rfl⟩⟩
  · rw [inputKernel, hs]
    rfl
  · rw [Node.isInput, ht]
    simpa using hin

theorem applies_of_handler {h : Handler} {shape : String → Option Shapes}
    (hm : (n.opType, h) ∈ handlers) (ho : h n shape params batch = .ok o) :
    Applies n params batch o := by
  simp only [handlers, List.mem_cons, Prod.mk.injEq, List.not_mem_nil, or_false] at hm
  rcases hm with ⟨ht, rfl⟩ | ⟨ht, rfl⟩ | ⟨ht, rfl⟩ | ⟨ht, rfl⟩ | ⟨ht, rfl⟩ | ⟨ht, rfl⟩ |
    ⟨ht, rfl⟩ | ⟨ht, rfl⟩ | ⟨ht, rfl⟩ | ⟨ht, rfl⟩ | ⟨ht, rfl⟩ | ⟨ht, rfl⟩ | ⟨ht, rfl⟩
  · exact applies_of_input ht (by rfl) (by decide) ho
  · exact applies_of_input ht (by rfl) (by decide) ho
  · obtain ⟨value, hk, rfl⟩ := constant_eq_ok ho
    exact ⟨_, [], _, (kernel?_of_opType ht (by rfl)).trans hk, rfl,
      Or.inr ⟨isInput_eq_false ht (by decide), Or.inr ⟨rfl, value, rfl⟩⟩⟩
  · exact applies_of_bottoms ht (by rfl) (by decide) ⟨rfl, binary_eq_ok ho⟩
  · exact applies_of_bottoms ht (by rfl) (by decide) ⟨rfl, binary_eq_ok ho⟩
  · exact applies_of_bottoms ht (by rfl) (by decide) ⟨rfl, binary_eq_ok ho⟩
  · exact applies_of_bottoms ht (by rfl) (by decide) ⟨rfl, unary_eq_ok ho⟩
  · exact applies_of_bottoms ht (by rfl) (by decide) ⟨rfl, unary_eq_ok ho⟩
  · obtain ⟨k, hk⟩ := biasAdd_eq_ok ho
    exact applies_of_bottoms ht (by rfl) (by decide) hk
  · obtain ⟨k, hk⟩ := transpose_eq_ok ho
    exact applies_of_bottoms ht (by rfl) (by decide) hk
  · obtain ⟨index, hi, source, hb, rfl⟩ := accessor_eq_ok.1 ho
    refine applies_of_bottoms ht (by rfl) (by decide) ⟨?_, by rw [hb]⟩
    rw [accessorKernel, hi]
    rfl
  · obtain ⟨items, -, rfl⟩ := tuple_eq_ok.1 ho
    exact applies_of_bottoms ht (by rfl) (by decide) ⟨rfl, rfl⟩
  · obtain ⟨k, hk⟩ := convolution_eq_ok ho
    exact applies_of_bottoms ht (by rfl) (by decide) hk

/-! ## The value of a node -/

/-- What the kernel of a node computes. An input node passes it the parameter of its name, or else
the tensor fed under its name; any other node passes it the values of its bottoms in order. -/
def kernelValue (params : Dict Tensor) (batch : Int) (feed : Dict Tensor)
    (value : String → Option Value) (n : Node) : Option Value := do
  let k ← kernel? n params batch
  if n.isInput then
    let t ← params.get? n.name <|> feed.get? n.name
    (k.forward n.opType n.name [.tensor t]).toOption
  else
    let inputs ← n.bottoms.mapM value
    (k.forward n.opType n.name inputs).toOption

def others (nodes : List Node) (name : String) : List Node := nodes.filter (·.name ≠ name)

theorem length_others (h : nodes.find? (·.name = name) = some n) :
    (others nodes name).length < nodes.length := by
  obtain ⟨hn, hname⟩ := Node.of_find?_name h
  exact List.length_filter_lt_length_iff_exists.2 ⟨n, hn, by simpa using hname⟩

theorem find?_others {i : String} (h : i ≠ name) :
    (others nodes name).find? (·.name = i) = nodes.find? (·.name = i) := by
  rw [others, List.find?_filter]
  congr 1
  funext m
  by_cases hm : m.name = i
  · simp [hm, h]
  · simp [hm]

/-- The value of a node among others: what its kernel computes from the values of its bottoms. These
are evaluated without the node, so that a node that reads itself, at once or through others, has no
value. -/
def evaluate (nodes : List Node) (params : Dict Tensor) (batch : Int) (feed : Dict Tensor)
    (name : String) : Option Value :=
  match _h : nodes.find? (·.name = name) with
  | none => none
  | some n => kernelValue params batch feed (evaluate (others nodes name) params batch feed) n
termination_by nodes.length
decreasing_by exact length_others _h

theorem evaluate_of_none (h : nodes.find? (·.name = name) = none) :
    evaluate nodes params batch feed name = none := by
  rw [evaluate]
  split
  · rfl
  · next n hn => cases h.symm.trans hn

theorem evaluate_of_some (h : nodes.find? (·.name = name) = some n) :
    evaluate nodes params batch feed name =
      kernelValue params batch feed (evaluate (others nodes name) params batch feed) n := by
  rw [evaluate]
  split
  · next hn => cases h.symm.trans hn
  · next m hm =>
    cases h.symm.trans hm
    rfl

theorem kernelValue_congr {value value' : String → Option Value}
    (h : ∀ b ∈ n.bottoms, value b = value' b) :
    kernelValue params batch feed value n = kernelValue params batch feed value' n := by
  rw [kernelValue, kernelValue, Outcome.mapM_congr h]

/-- The value of a node depends only on the nodes that feed it, at once or through others, if these
do not read each other in a cycle. -/
theorem evaluate_congr (hc : ¬Node.Cyclic nodes) {part part' : List Node} {i : String}
    (h : ∀ a, ReflTransGen (Node.Feeds nodes) a i →
      part.find? (·.name = a) = nodes.find? (·.name = a) ∧
        part'.find? (·.name = a) = nodes.find? (·.name = a)) :
    evaluate part params batch feed i = evaluate part' params batch feed i := by
  induction part, i using evaluate.induct generalizing part' with
  | case1 part i hnone =>
      obtain ⟨hp, hp'⟩ := h i .refl
      rw [evaluate_of_none hnone, evaluate_of_none (hp'.trans (hp.symm.trans hnone))]
  | case2 part i n hsome ih =>
      obtain ⟨hp, hp'⟩ := h i .refl
      rw [evaluate_of_some hsome, evaluate_of_some (hp'.trans (hp.symm.trans hsome))]
      obtain ⟨hn, hname⟩ := Node.of_find?_name (hp.symm.trans hsome)
      refine kernelValue_congr fun b hb => ih b fun a ha => ?_
      have hfeeds : Node.Feeds nodes b i := ⟨n, hn, hname, hb⟩
      -- a bottom does not depend on the node that is left out
      have hne : a ≠ i := by
        rintro rfl
        exact hc ⟨a, .tail' ha hfeeds⟩
      rw [find?_others hne, find?_others hne]
      exact h a (ha.tail hfeeds)

theorem evaluate_eq (hd : (nodes.map Node.name).Nodup) (hc : ¬Node.Cyclic nodes) (hn : n ∈ nodes) :
    evaluate nodes params batch feed n.name =
      kernelValue params batch feed (evaluate nodes params batch feed) n := by
  rw [evaluate_of_some ((Node.find?_name_eq_some_iff hd).2 ⟨hn, rfl⟩)]
  refine kernelValue_congr fun b hb => evaluate_congr hc fun a ha => ⟨find?_others ?_, rfl⟩
  rintro rfl
  exact hc ⟨n.name, .tail' ha ⟨n, hn, rfl, hb⟩⟩

section

variable {value : String → Option Value} (hk : kernel? n params batch = some k)

include hk

theorem kernelValue_input (hin : n.isInput = true) {t : Tensor} {v : Value}
    (ht : (supplied params feed).get? n.name = some t)
    (hf : k.forward n.opType n.name [.tensor t] = .ok v) :
    kernelValue params batch feed value n = some v := by
  rw [kernelValue, hk, Option.bind_eq_bind, Option.bind_some, if_pos hin, ← supplied_get?, ht,
    Option.bind_eq_bind, Option.bind_some, hf]
  rfl

theorem kernelValue_bottoms (hin : n.isInput = false) {inputs : List Value} {v : Value}
    (hi : List.Forall₂ (fun b x => value b = some x) n.bottoms inputs)
    (hf : k.forward n.opType n.name inputs = .ok v) :
    kernelValue params batch feed value n = some v := by
  rw [kernelValue, hk, Option.bind_eq_bind, Option.bind_some, if_neg (by simp [hin]),
    Outcome.mapM_eq_some.2 hi, Option.bind_eq_bind, Option.bind_some, hf]
  rfl

end

/-- Values that obey the equation of a node are what its kernel computes from those of its
bottoms. -/
theorem kernelValue_of_settles {value : String → Option Value} (hown : n.name ∉ n.bottoms)
    (ha : Applies n params batch o) (hset : Settles (supplied params feed) env o)
    (hb : ∀ b ∈ n.bottoms, ∃ v, value b = some v ∧ env b = some v) :
    ∃ v, kernelValue params batch feed value n = some v ∧ env n.name = some v := by
  obtain ⟨k, inputs, S, hk, rfl, hreads⟩ := ha
  obtain ⟨values, v, hin, hf, hv⟩ := hset
  replace hf := Outcome.mapError_eq_ok.1 hf
  refine ⟨v, ?_, hv⟩
  rcases hreads with ⟨hinput, rfl⟩ | ⟨hinput, rfl | ⟨rfl, c, rfl⟩⟩
  · obtain ⟨x, xs, hx, hxs, rfl⟩ := List.forall₂_cons_left_iff.1 hin
    cases hxs
    rw [inputOf] at hx
    obtain ⟨t, ht, rfl⟩ := Option.map_eq_some_iff.1 ((if_pos rfl).symm.trans hx)
    exact kernelValue_input hk hinput ht hf
  · refine kernelValue_bottoms hk hinput ?_ hf
    refine ((List.forall₂_and_left _ _).2 ⟨fun b hb => hb, hin⟩).imp fun b x h => ?_
    obtain ⟨hmem, hx⟩ := h
    obtain ⟨w, he, henv⟩ := hb b hmem
    have hne : b ≠ n.name := fun h => hown (h ▸ hmem)
    rw [inputOf] at hx
    rw [he, ← henv]
    exact (if_neg hne).symm.trans hx
  · obtain ⟨ws, hws⟩ := Outcome.exists_forall₂ hb
    exact kernelValue_bottoms hk hinput (hws.imp fun b w hw => hw.1) hf

/-! ## Runs -/

theorem settles_of_run (hl : lower name nodes r = .ok p) (ht : r.table = table)
    (hr : p.runFrom feed none [] p.operations = .ok store) :
    (∀ o ∈ p.operations, Settles (supplied r.params feed) (valueOf store) o) ∧
      Agrees (nodes.map Node.name).reverse store (valueOf store) := by
  obtain ⟨hscoped, hnames⟩ := scoped_of_lower hl ht
  rw [runFrom_supplied, (lower_eq_ok hl).1] at hr
  obtain ⟨-, hset, hagree⟩ := settles_of_runFrom rfl hscoped (by simp) hr
  rw [List.append_nil, hnames] at hagree
  exact ⟨hset, hagree⟩

theorem evaluate_of_run (hl : lower name nodes r = .ok p) (ht : r.table = table)
    (hr : p.runFrom feed none [] p.operations = .ok store) :
    ∀ n ∈ nodes, ∃ v, evaluate nodes r.params r.batch feed n.name = some v ∧
      store.lookup n.name = some v := by
  obtain ⟨hset, -⟩ := settles_of_run hl ht hr
  obtain ⟨hd, hord⟩ := ordered_of_lower hl
  refine Node.forall_of_orderedAfter (P := fun i => ∃ v,
    evaluate nodes r.params r.batch feed i = some v ∧ store.lookup i = some v) hord (by simp)
    fun n hn hb => ?_
  have hstage := hn
  rw [← map_node_stages hl] at hstage
  obtain ⟨s, hs, rfl⟩ := List.mem_map.1 hstage
  obtain ⟨hown, h, known, o, hm, hok, hops, -⟩ := exists_operation_of_lower hl ht hs
  have ho : o ∈ p.operations := List.mem_flatMap.2 ⟨s, hs, hops ▸ List.mem_singleton_self o⟩
  rw [evaluate_eq hd (Node.not_cyclic_of_orderedAfter hd hord) hn]
  exact kernelValue_of_settles hown (applies_of_handler hm hok) (hset o ho) hb

/-- A value that is found under a name after a run is that of the node of the name. -/
theorem evaluate_of_lookup (hl : lower name nodes r = .ok p) (ht : r.table = table)
    (hr : p.runFrom feed none [] p.operations = .ok store) {i : String} {v : Value}
    (hv : store.lookup i = some v) : evaluate nodes r.params r.batch feed i = some v := by
  obtain ⟨-, hagree⟩ := settles_of_run hl ht hr
  have hi : i ∈ nodes.map Node.name := by
    by_contra hi
    rw [hagree.missing i (by rwa [List.mem_reverse])] at hv
    cases hv
  obtain ⟨n, hn, rfl⟩ := List.mem_map.1 hi
  obtain ⟨w, he, hw⟩ := evaluate_of_run hl ht hr n hn
  rw [he, ← hw, hv]

/-- The names whose values a run delivers: the requested ones, or that of the last node if there are
none. -/
def delivered (nodes : List Node) (outputs : List String) : List String :=
  if outputs = [] then (nodes.map Node.name).getLast?.toList else outputs

theorem evaluate_delivered (hl : lower name nodes r = .ok p) (ht : r.table = table)
    {outputs : List String} {values : List Value} (hr : p.run feed outputs none = .ok values) :
    List.Forall₂ (fun i v => evaluate nodes r.params r.batch feed i = some v)
      (delivered nodes outputs) values := by
  obtain ⟨store, hstore⟩ := exists_runFrom_of_run hr
  rw [delivered]
  split
  · next hnil =>
    subst hnil
    rw [run_eq, hstore] at hr
    cases hr
    have hkeys := map_fst_runFrom hstore
    rw [(scoped_of_lower hl ht).2, List.map_nil, List.append_nil] at hkeys
    rw [← List.head?_reverse, ← hkeys]
    cases store with
    | nil => exact .nil
    | cons e store => exact .cons (evaluate_of_lookup hl ht hstore List.lookup_cons_self) .nil
  · next hne =>
    exact ((run_eq_ok hstore hne).1 hr).imp fun i v hv => evaluate_of_lookup hl ht hstore hv

/-! ## Another order -/

/-- Behind other nodes of a lowered list, and behind its bottoms, a node becomes the same stage. -/
theorem lowerNode_of_lower (hl : lower name nodes r = .ok p) (ht : r.table = table)
    {done : List Stage} (hdone : ∀ d ∈ done, d ∈ p.stages) {s : Stage} (hs : s ∈ p.stages)
    (hname : s.node.name ∉ done.map (·.node.name))
    (hb : ∀ b ∈ s.node.bottoms, b ∈ done.map (·.node.name)) :
    lowerNode r done s.node = .ok s := by
  have hd : (p.stages.map (·.node.name)).Nodup := by
    have hd := (ordered_of_lower hl).1
    rwa [← map_node_stages hl, List.map_map] at hd
  obtain ⟨-, h, known, o, hm, hok, hops, hknown⟩ := exists_operation_of_lower hl ht hs
  have hshape : ∀ b ∈ s.node.bottoms, shapeOf done b = known b := by
    intro b hmem
    obtain ⟨S, hS, hall⟩ := hknown b hmem
    obtain ⟨d, hd', rfl, hdone'⟩ := exists_shapeOf (hb b hmem)
    rw [shapeOf_of_mem hd (hdone d hd')] at hall
    rw [hdone', hall, hS]
  obtain ⟨n, operations, hne⟩ := s
  obtain rfl : operations = [o] := hops
  refine lowerNode_of_handler (fun d hd => simple_of_lower hl ht d (hdone d hd)) hname hb ?_
    (lowering_eq_ok.2 ⟨o, handler_congr hm hshape hok, rfl⟩) (lowersTo_of_handler hm hok)
  rw [ht]
  exact table_get?.2 ⟨h, hm, rfl⟩

theorem exists_lower_of_perm (hp : nodes.Perm nodes') (ho : Graph.orderedAfter [] nodes' = true)
    (hl : lower name nodes r = .ok p) (ht : r.table = table) (name' : String) :
    ∃ p', lower name' nodes' r = .ok p' ∧ p'.stages.Perm p.stages := by
  have hd : (nodes'.map Node.name).Nodup :=
    (hp.map Node.name).nodup_iff.1 (ordered_of_lower hl).1
  have hnodes := map_node_stages hl
  have hstep : ∀ n ∈ nodes', ∀ done : List Stage, (∀ d ∈ done, d ∈ p.stages) →
      n.name ∉ done.map (·.node.name) → (∀ b ∈ n.bottoms, b ∈ done.map (·.node.name)) →
        ∃ s, lowerNode r done n = .ok s ∧ s.node = n ∧ s ∈ p.stages := by
    intro n hn done hdone hname hb
    have hstage := hp.mem_iff.2 hn
    rw [← hnodes] at hstage
    obtain ⟨s, hs, rfl⟩ := List.mem_map.1 hstage
    exact ⟨s, lowerNode_of_lower hl ht hdone hs hname hb, rfl, hs⟩
  have hnone : ∀ s ∈ ([] : List Stage), s ∈ p.stages := by simp
  have hseen : ∀ b ∈ ([] : List String), b ∈ ([] : List Stage).map (·.node.name) := by simp
  obtain ⟨stages, hls, hnew, hsub⟩ := exists_lowerNodes hstep hnone hd (by simp) hseen ho
  refine ⟨⟨name', r.device, r.batch, r.params, stages⟩, ?_, ?_⟩
  · rw [lower, hls]
    rfl
  · have hnodup : stages.Nodup := by
      refine List.Nodup.of_map Stage.node (List.Nodup.of_map Node.name ?_)
      rwa [hnew]
    have hlength : p.stages.length = stages.length := by
      rw [← List.length_map Stage.node, hnodes, hp.length_eq, ← hnew, List.length_map]
    exact (hnodup.subperm hsub).perm_of_length_le (Nat.le_of_eq hlength)

/-- If the nodes run to the end in one order, they do in another one, with the same values. -/
theorem exists_runFrom_of_perm (hp : nodes.Perm nodes') (hl : lower name nodes r = .ok p)
    (hl' : lower name' nodes' r = .ok p') (ht : r.table = table)
    (hr : p.runFrom feed none [] p.operations = .ok store) :
    ∃ store', p'.runFrom feed none [] p'.operations = .ok store' ∧
      ∀ i, store'.lookup i = store.lookup i := by
  obtain ⟨hset, hagree⟩ := settles_of_run hl ht hr
  obtain ⟨hscoped, hnames⟩ := scoped_of_lower hl' ht
  obtain ⟨q, hq, hstages⟩ := exists_lower_of_perm hp (ordered_of_lower hl').2 hl ht name'
  obtain rfl : q = p' := Except.ok.inj (hq.symm.trans hl')
  have hset' : ∀ o ∈ q.operations, Settles (supplied r.params feed) (valueOf store) o := by
    intro o ho
    exact hset o ((hstages.flatMap_right Stage.operations).mem_iff.1 ho)
  obtain ⟨store', hr', hagree'⟩ :=
    runFrom_of_settles (p := { q with params := .empty }) rfl hscoped agrees_nil hset'
  refine ⟨store', ?_, fun i => ?_⟩
  · rw [runFrom_supplied, (lower_eq_ok hl').1]
    exact hr'
  · rw [List.append_nil, hnames] at hagree'
    by_cases hi : i ∈ (nodes'.map Node.name).reverse
    · obtain ⟨v, hv', hv⟩ := hagree'.computed i hi
      exact hv'.trans hv.symm
    · rw [hagree'.missing i hi, hagree.missing i]
      rw [List.mem_reverse] at hi ⊢
      rwa [(hp.map Node.name).mem_iff]

theorem exists_run_of_perm (hp : nodes.Perm nodes') (hl : lower name nodes r = .ok p)
    (hl' : lower name' nodes' r = .ok p') (ht : r.table = table) {outputs : List String}
    {values : List Value} (hr : p.run feed outputs none = .ok values) :
    ∃ values', p'.run feed outputs none = .ok values' ∧ (outputs ≠ [] → values' = values) := by
  obtain ⟨store, hstore⟩ := exists_runFrom_of_run hr
  obtain ⟨store', hstore', hlookup⟩ := exists_runFrom_of_perm hp hl hl' ht hstore
  by_cases hne : outputs = []
  · subst hne
    exact ⟨_, by rw [run_eq, hstore']; rfl, fun h => absurd rfl h⟩
  · refine ⟨values, (run_eq_ok hstore' hne).2 ?_, fun _ => rfl⟩
    exact ((run_eq_ok hstore hne).1 hr).imp fun i v hv => (hlookup i).trans hv

/-- What a run of the reference backend delivers for a node is the value of the node, which is what
its kernel computes from the values of its bottoms. Two orders of the same nodes can both be lowered
or neither, and then both run to their ends with the same values or neither does. -/
theorem run_eq_evaluate (nodes : List Node) (name device : String) (params : Dict Tensor)
    (batch : Int) :
    (∀ p, lower name nodes ⟨device, table, params, batch⟩ = .ok p → ∀ feed,
      (∀ n ∈ nodes, evaluate nodes params batch feed n.name =
        kernelValue params batch feed (evaluate nodes params batch feed) n) ∧
      ∀ outputs values, p.run feed outputs none = .ok values →
        List.Forall₂ (fun i v => evaluate nodes params batch feed i = some v)
          (delivered nodes outputs) values) ∧
      ∀ nodes' name', nodes.Perm nodes' → Graph.orderedAfter [] nodes = true →
        Graph.orderedAfter [] nodes' = true →
          ((∃ p, lower name nodes ⟨device, table, params, batch⟩ = .ok p) ↔
            ∃ p', lower name' nodes' ⟨device, table, params, batch⟩ = .ok p') ∧
          ∀ p p', lower name nodes ⟨device, table, params, batch⟩ = .ok p →
            lower name' nodes' ⟨device, table, params, batch⟩ = .ok p' → ∀ feed outputs,
              ((∃ e, p.run feed outputs none = .error e) ∧
                ∃ e, p'.run feed outputs none = .error e) ∨
              ∃ values values', p.run feed outputs none = .ok values ∧
                p'.run feed outputs none = .ok values' ∧ (outputs ≠ [] → values' = values) := by
  refine ⟨fun p hl feed => ⟨fun n hn => ?_, fun outputs values hr => evaluate_delivered hl rfl hr⟩,
    fun nodes' name' hp ho ho' => ⟨⟨fun ⟨p, hl⟩ => ?_, fun ⟨p', hl'⟩ => ?_⟩,
      fun p p' hl hl' feed outputs => ?_⟩⟩
  · obtain ⟨hd, hord⟩ := ordered_of_lower hl
    exact evaluate_eq hd (Node.not_cyclic_of_orderedAfter hd hord) hn
  · obtain ⟨p', hl', -⟩ := exists_lower_of_perm hp ho' hl rfl name'
    exact ⟨p', hl'⟩
  · obtain ⟨p, hl, -⟩ := exists_lower_of_perm hp.symm ho hl' rfl name
    exact ⟨p, hl⟩
  · cases hr : p.run feed outputs none with
    | ok values =>
        obtain ⟨values', hr', heq⟩ := exists_run_of_perm hp hl hl' rfl hr
        exact Or.inr ⟨values, values', rfl, hr', heq⟩
    | error e =>
        cases hr' : p'.run feed outputs none with
        | error e' => exact Or.inl ⟨⟨e, rfl⟩, e', rfl⟩
        | ok values' =>
            obtain ⟨values, hok, -⟩ := exists_run_of_perm hp.symm hl' hl rfl hr'
            rw [hr] at hok
            cases hok

def addends : List Node :=
  [{ name := "x", types := ["Input"], shapes := .tensor ⟨[1]⟩, tops := ["sum"] },
    { name := "y", types := ["Input"], shapes := .tensor ⟨[1]⟩, tops := ["sum"] },
    { name := "sum", types := ["Add"], shapes := .tensor ⟨[1]⟩, bottoms := ["x", "y"] }]

def swappedAddends : List Node :=
  [{ name := "y", types := ["Input"], shapes := .tensor ⟨[1]⟩, tops := ["sum"] },
    { name := "x", types := ["Input"], shapes := .tensor ⟨[1]⟩, tops := ["sum"] },
    { name := "sum", types := ["Add"], shapes := .tensor ⟨[1]⟩, bottoms := ["x", "y"] }]

theorem run_addends :
    ∃ (params feed : Dict Tensor) (p p' : Program) (v : Value), addends.Perm swappedAddends ∧
      Graph.orderedAfter [] addends = true ∧ Graph.orderedAfter [] swappedAddends = true ∧
        lower "sum" addends ⟨"cpu", table, params, openBatch⟩ = .ok p ∧
          lower "sum" swappedAddends ⟨"cpu", table, params, openBatch⟩ = .ok p' ∧
            p.run feed ["sum"] none = .ok [v] ∧ p'.run feed ["sum"] none = .ok [v] ∧
              evaluate addends params openBatch feed "sum" = some v := by
  have hrun : (lower "sum" addends ⟨"cpu", table, ⟨[("y", ⟨[1], [⟨0x40000000⟩]⟩)]⟩, openBatch⟩).map
      (fun p => p.run ⟨[("x", ⟨[1], [⟨0x3F800000⟩]⟩)]⟩ ["sum"] none) =
        .ok (.ok [.tensor ⟨[1], [⟨0x40400000⟩]⟩]) := by decide +kernel
  obtain ⟨p, hl, hr⟩ := Outcome.map_eq_ok.1 hrun
  have hp : addends.Perm swappedAddends := .swap _ _ _
  have ho : Graph.orderedAfter [] addends = true := by decide +kernel
  have ho' : Graph.orderedAfter [] swappedAddends = true := by decide +kernel
  obtain ⟨heval, horder⟩ :=
    run_eq_evaluate addends "sum" "cpu" ⟨[("y", ⟨[1], [⟨0x40000000⟩]⟩)]⟩ openBatch
  obtain ⟨hlower, hruns⟩ := horder swappedAddends "sum" hp ho ho'
  obtain ⟨p', hl'⟩ := hlower.1 ⟨p, hl⟩
  refine ⟨_, _, p, p', _, hp, ho, ho', hl, hl', hr, ?_, ?_⟩
  · rcases hruns p p' hl hl' ⟨[("x", ⟨[1], [⟨0x3F800000⟩]⟩)]⟩ ["sum"] with
      ⟨⟨e, he⟩, -⟩ | ⟨values, values', hv, hv', heq⟩
    · rw [hr] at he
      cases he
    · rw [hv', heq (List.cons_ne_nil _ _), ← hv, hr]
  · cases (heval p hl _).2 _ _ hr with
    | cons h _ => exact h

end Dataflow.Cpu
