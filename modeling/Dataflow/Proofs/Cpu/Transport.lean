import Dataflow.Proofs.Cpu.Handlers

/-!
# Nodes in another context

A node that the reference backend has lowered and run in one program can be lowered and run in
another one, where its readers differ and where the nodes it reads have the same values but perhaps
other shapes. The shapes need not agree for that: it is enough that they have the same form, or
that the new one is that of a single tensor where the value is one. An accessor of a value that is
a tensor can only have asked for element zero.
-/

namespace Dataflow

/-- The shape `S'` can take the place of `S` for the value `v`. -/
def Shapes.Follows (v : Value) (S S' : Shapes) : Prop :=
  (S'.isTuple = S.isTuple ∧ S'.count = S.count) ∨ (S'.isTuple = false ∧ v.isTuple = false)

theorem Shapes.isSome_get? (S : Shapes) (i : Nat) : (S.get? i).isSome = decide (i < S.count) := by
  cases S with
  | tensor s =>
      by_cases h : i = 0
      · simp [get?, count, h]
      · simp [get?, count, h]
  | tuple items =>
      by_cases h : i < items.length
      · simp [get?, count, h]
      · simp [get?, count, h]

theorem Shapes.follows_refl (v : Value) (S : Shapes) : S.Follows v S := Or.inl ⟨rfl, rfl⟩

theorem Shapes.follows_tensor {t : Tensor} {S S' : Shapes} (h : S'.isTuple = false) :
    Follows (.tensor t) S S' := Or.inr ⟨h, rfl⟩

theorem Shapes.exists_tensor {S : Shapes} (h : S.isTuple = false) : ∃ s, S = .tensor s := by
  cases S with
  | tensor s => exact ⟨s, rfl⟩
  | tuple items => cases h

namespace Cpu

open Program

/-- What a run of a lowered node leaves behind: its handler, knowing the shapes of the nodes that
are read, made an operation of a recorded shape, whose equation the computed values obey. -/
structure Explained (n : Node) (batch : Int) (feed : Dict Tensor) (env : String → Option Value)
    (shape : String → Option Shapes) : Prop where
  reads : n.name ∉ n.bottoms
  lowered : ∃ h known o, (n.opType, h) ∈ handlers ∧ h n known .empty batch = .ok o ∧
    (∀ b ∈ n.bottoms, ∃ S, known b = some S ∧ shape b = some S) ∧
      Settles feed env o ∧ shape n.name = some o.shape

def Fits (env : String → Option Value) (shape : String → Option Shapes) (name : String)
    (S' : Shapes) : Prop :=
  ∀ v S, env name = some v → shape name = some S → Shapes.Follows v S S'

variable {n : Node} {feed : Dict Tensor} {env : String → Option Value}
  {known known' : String → Option Shapes} {o : Operation}

/-! ## Accessors and tuples -/

theorem elementShape_follows {t : Tensor} {x : Value} {source : String} {index : Nat}
    {S S' : Shapes} (hS : known source = some S) (hS' : known' source = some S')
    (hx : x.element index = .ok t) (hf : Shapes.Follows x S S') :
    Shapes.Follows (.tensor t) (elementShape n known source index)
      (elementShape n known' source index) := by
  have hshape : ∀ known : String → Option Shapes, ∀ S, known source = some S →
      elementShape n known source index = ((S.get? index).map Shapes.tensor).getD n.shapes := by
    intro known S hS
    rw [elementShape, hS, Option.bind_some]
  rw [hshape known S hS, hshape known' S' hS']
  have htensor : (S'.get? index).isSome = true →
      (((S'.get? index).map Shapes.tensor).getD n.shapes).isTuple = false := by
    intro hs
    obtain ⟨s, hs⟩ := Option.isSome_iff_exists.1 hs
    rw [hs]
    rfl
  by_cases hs : (S'.get? index).isSome = true
  · exact Shapes.follows_tensor (htensor hs)
  · rcases hf with ⟨-, hcount⟩ | ⟨htuple, hx'⟩
    · have hnone : S.get? index = none := by
        rw [Shapes.isSome_get?, hcount, ← Shapes.isSome_get?] at hs
        simpa using hs
      have hnone' : S'.get? index = none := by simpa using hs
      rw [hnone, hnone']
      exact Shapes.follows_refl _ _
    · obtain ⟨s, rfl⟩ := Shapes.exists_tensor htuple
      cases x with
      | tuple items => cases hx'
      | tensor t' =>
          have hzero : index = 0 := by
            by_contra hne
            rw [Value.element, if_neg hne] at hx
            cases hx
          exact absurd (by rw [hzero]; rfl) hs

theorem element_of_settles {source : String} {index : Nat} {S : Shapes}
    (hne : source ≠ n.name)
    (hs : Settles feed env ((Kernel.element index).operation n [source] S)) :
    ∃ x t, env source = some x ∧ x.element index = .ok t ∧ env n.name = some (.tensor t) := by
  obtain ⟨inputs, v, hin, hf, hv⟩ := hs
  obtain ⟨x, xs, hx, hxs, rfl⟩ := List.forall₂_cons_left_iff.1 hin
  cases hxs
  have hx' : env source = some x := by
    rw [inputOf] at hx
    exact (if_neg hne).symm.trans hx
  obtain ⟨t, ht, he⟩ := Outcome.bind_eq_ok.1 (Outcome.mapError_eq_ok.1 hf)
  cases ht
  obtain ⟨t, ht, he⟩ := Outcome.bind_eq_ok.1 he
  cases he
  exact ⟨x, t, hx', Outcome.mapError_eq_ok.1 ht, hv⟩

theorem tensors_of_settles {S : Shapes} (hne : n.name ∉ n.bottoms)
    (hs : Settles feed env (Kernel.tuple.operation n n.bottoms S)) :
    ∃ items, env n.name = some (.tuple items) ∧
      List.Forall₂ (fun b t => env b = some (.tensor t)) n.bottoms items := by
  obtain ⟨inputs, v, hin, hf, hv⟩ := hs
  obtain ⟨items, hitems, he⟩ := Outcome.bind_eq_ok.1 (Outcome.mapError_eq_ok.1 hf)
  cases he
  refine ⟨items, hv, ?_⟩
  have hread : ∀ b ∈ n.bottoms, b ≠ n.name := fun b hb he => hne (he ▸ hb)
  have hin : List.Forall₂ (fun b x => env b = some x) n.bottoms inputs := by
    refine ((List.forall₂_and_left _ _).2 ⟨hread, hin⟩).imp fun b x hx => ?_
    have hx2 := hx.2
    rw [inputOf] at hx2
    exact (if_neg hx.1).symm.trans hx2
  rw [Outcome.mapM_eq_ok] at hitems
  exact Outcome.forall₂_comp hin hitems fun b x t hx ht => by
    rw [hx, Kernel.asTensor_eq_ok.1 ht]

/-! ## Any node -/

theorem inputOf_congr {feed' : Dict Tensor} {env' : String → Option Value} (hl : n.LowersTo o)
    (hin : n.isInput = true → feed'.get? n.name = feed.get? n.name)
    (henv : ∀ b ∈ n.bottoms, env' b = env b) (hown : n.name ∉ n.bottoms) :
    ∀ i ∈ o.inputs, inputOf feed' env' o i = inputOf feed env o i := by
  intro i hi
  unfold inputOf
  rw [hl.name_eq]
  rcases hl.inputs i hi with hb | ⟨hinput, rfl⟩
  · have hne : i ≠ n.name := fun he => hown (he ▸ hb)
    rw [if_neg hne, if_neg hne, henv i hb]
  · rw [if_pos rfl, if_pos rfl, hin hinput]

theorem Explained.computes {batch : Int} {shape : String → Option Shapes} {r : Recipe}
    {feed' : Dict Tensor} {env' : String → Option Value} {Fit : String → Shapes → Prop}
    (hx : Explained n batch feed env shape) (tops : List String) (hp : r.params = .empty)
    (ht : r.table.get? n.opType = table.get? n.opType)
    (hin : n.isInput = true → r.batch = batch ∧ feed'.get? n.name = feed.get? n.name)
    (henv : ∀ b ∈ n.bottoms, env' b = env b) (hself : env' n.name = env n.name)
    (hfit : ∀ b ∈ n.bottoms, ∀ S', Fit b S' → Fits env shape b S')
    (hfit' : ∀ S', Fits env shape n.name S' → Fit n.name S') :
    Computes r feed' env' Fit { n with tops } := by
  obtain ⟨h, known, o, hm, ho, hknown, hset, hshape⟩ := hx.lowered
  intro known' hknown'
  -- it is enough to find an operation that differs in its shape only
  suffices hop : ∃ o', h n known' .empty r.batch = .ok o' ∧ o'.name = o.name ∧
      o'.inputs = o.inputs ∧ o'.forward = o.forward ∧
        ∀ v, env n.name = some v → Shapes.Follows v o.shape o'.shape by
    obtain ⟨o', ho', hname, hinputs, hforward, hfollows⟩ := hop
    have hl : n.LowersTo o' := lowersTo_of_handler hm ho'
    have hset' : Settles feed env o' := by
      obtain ⟨inputs, v, hi, hf, hv⟩ := hset
      refine ⟨inputs, v, ?_, hforward ▸ hf, hname ▸ hv⟩
      unfold inputOf at hi ⊢
      rw [hinputs, hname]
      exact hi
    refine ⟨h.lowering, o', ?_, ?_, ⟨hl.name_eq, hl.inputs⟩, ?_, ?_⟩
    · exact ht.trans (table_get?.2 ⟨h, hm, rfl⟩)
    · rw [hp, lowering_eq_ok]
      exact ⟨o', (handler_tops hm n tops known' .empty r.batch).trans ho', rfl⟩
    · exact hset'.congr (inputOf_congr hl (fun hi => (hin hi).2) henv hx.reads)
        (hl.name_eq.symm ▸ hself)
    · refine hfit' _ fun v S hv hS => ?_
      obtain rfl := Option.some.inj (hshape.symm.trans hS)
      exact hfollows v hv
  have hread : ∀ b ∈ n.bottoms, ∃ S S', known b = some S ∧ known' b = some S' ∧
      ∀ v, env b = some v → Shapes.Follows v S S' := by
    intro b hb
    obtain ⟨S, hS, hS'⟩ := hknown b hb
    obtain ⟨S', hk, hf⟩ := hknown' b hb
    exact ⟨S, S', hS, hk, fun v hv => hfit b hb S' hf v S hv hS'⟩
  rcases handlers_cases hm with ⟨hinput, rfl⟩ | ⟨-, hplain | rfl | rfl⟩
  · have hbatch : r.batch = batch := (hin (by simpa [Node.isInput] using hinput)).1
    exact ⟨o, by rw [hbatch]; exact ho, rfl, rfl, rfl, fun v _ => Shapes.follows_refl v _⟩
  · exact ⟨o, by rw [hplain.congr n known' known .empty r.batch batch]; exact ho, rfl, rfl, rfl,
      fun v _ => Shapes.follows_refl v _⟩
  · obtain ⟨index, hi, source, hb, rfl⟩ := accessor_eq_ok.1 ho
    refine ⟨_, accessor_eq_ok.2 ⟨index, hi, source, hb, rfl⟩, rfl, rfl, rfl, fun v hv => ?_⟩
    have hmem : source ∈ n.bottoms := by rw [hb, List.mem_singleton]
    have hne : source ≠ n.name := fun he => hx.reads (he ▸ hmem)
    obtain ⟨x, t, hx', he, hv'⟩ := element_of_settles hne hset
    obtain ⟨S, S', hS, hS', hf⟩ := hread source hmem
    obtain rfl := Option.some.inj (hv'.symm.trans hv)
    exact elementShape_follows hS hS' he (hf x hx')
  · obtain ⟨items, hi, rfl⟩ := tuple_eq_ok.1 ho
    obtain ⟨values, hv', hvalues⟩ := tensors_of_settles hx.reads hset
    have htensor : ∀ b ∈ n.bottoms, ∃ s, known' b = some (.tensor s) := by
      intro b hb
      obtain ⟨t, -, ht⟩ := Outcome.exists_right_of_mem hvalues hb
      obtain ⟨s, -, hs⟩ := Outcome.exists_right_of_mem hi hb
      obtain ⟨S, S', hS, hS', hf⟩ := hread b hb
      obtain rfl := Option.some.inj (hS.symm.trans hs)
      have htuple : S'.isTuple = false := by
        rcases hf _ ht with ⟨he, -⟩ | ⟨he, -⟩
        · exact he
        · exact he
      obtain ⟨s', rfl⟩ := Shapes.exists_tensor htuple
      exact ⟨s', hS'⟩
    obtain ⟨items', hi'⟩ := Outcome.exists_forall₂ htensor
    refine ⟨_, tuple_eq_ok.2 ⟨items', hi', rfl⟩, rfl, rfl, rfl, fun v _ => Or.inl ⟨rfl, ?_⟩⟩
    exact hi'.length_eq.symm.trans hi.length_eq

/-! ## Runs of the backend -/

/-- A run that comes to its end explains every node, and computes values for no other names. -/
theorem explained_of_run {name : String} {nodes : List Node} {r : Recipe} {p : Program}
    {store : Store} (hl : lower name nodes r = .ok p) (ht : r.table = table)
    (hp : r.params = .empty)
    (hr : p.runFrom feed none [] p.operations = .ok store) :
    (∀ n ∈ nodes, Explained n r.batch feed (valueOf store) (shapeOf p.stages)) ∧
      (∀ i ∈ nodes.map Node.name, ∃ v, valueOf store i = some v) ∧
        ∀ i, i ∉ nodes.map Node.name → valueOf store i = none := by
  have hnodes := map_node_stages hl
  have hnames : p.stages.map (·.node.name) = nodes.map Node.name := by
    rw [← hnodes, List.map_map]
    rfl
  obtain ⟨hscoped, hops⟩ := scoped_of_lower hl ht
  obtain ⟨-, hset, hagree⟩ := settles_of_runFrom ((lower_eq_ok hl).1.trans hp) hscoped (by simp) hr
  rw [List.append_nil, hops] at hagree
  refine ⟨fun n hn => ?_, fun i hi => ?_, fun i hi => hagree.missing i (by simpa using hi)⟩
  · rw [← hnodes] at hn
    obtain ⟨s, hs, rfl⟩ := List.mem_map.1 hn
    obtain ⟨hown, h, known, o, hm, hok, hops, hknown⟩ := exists_operation_of_lower hl ht hs
    rw [hp] at hok
    have hmem : o ∈ p.operations := List.mem_flatMap.2 ⟨s, hs, hops ▸ List.mem_singleton_self o⟩
    refine ⟨hown, h, known, o, hm, hok, hknown, hset o hmem, ?_⟩
    rw [shapeOf_of_mem (hnames ▸ (ordered_of_lower hl).1) hs, Stage.last]
    simp only [hops, List.getLast_singleton]
  · obtain ⟨v, hv, -⟩ := hagree.computed i (by simpa using hi)
    exact ⟨v, hv⟩

end Cpu

end Dataflow
