import Dataflow.Program.Basic
import Dataflow.Proofs.Graph.Arrangement
import Dataflow.Proofs.Program.Runs

/-!
# Lowered nodes

What a successful lowering says about each node, and conditions under which lowering succeeds and
the program runs to its end. The latter go node by node: `Computes` asks that a node can be lowered
as soon as the shapes of its bottoms fit, to one operation that obeys its equation and whose shape
fits again. Over a list of nodes in order this adds up to a program and a run of it.
-/

namespace Dataflow

/-- The node is lowered to the one operation `o`, which reads bottoms of the node only, or the
tensor that is fed to it if it is an input node. -/
structure Node.LowersTo (n : Node) (o : Operation) : Prop where
  name_eq : o.name = n.name
  inputs : ∀ i ∈ o.inputs, i ∈ n.bottoms ∨ n.isInput = true ∧ i = n.name

namespace Program

variable {r : Recipe} {done stages : List Stage} {nodes : List Node} {feed : Dict Tensor}
  {env : String → Option Value} {Fit : String → Shapes → Prop}

/-! ## Inversion -/

theorem lowerNode_eq_ok {n : Node} {s : Stage} (h : lowerNode r done n = .ok s) :
    s.node = n ∧ n.name ∉ done.map (·.node.name) ∧
      (∀ b ∈ n.bottoms, b ∈ done.map (·.node.name)) ∧
        (∃ handler, r.table.get? n.opType = some handler ∧
          handler n (shapeOf done) r.params r.batch = .ok s.operations) ∧
          checkInputs r.params n ((done.flatMap Stage.operations).map Operation.name)
            s.operations = .ok () := by
  unfold lowerNode at h
  dsimp only at h
  split at h
  · cases h
  · next hn =>
    split at h
    · cases h
    · next hb =>
      split at h
      · next handler ht =>
        obtain ⟨operations, ho, h⟩ := Outcome.bind_eq_ok.1 h
        split at h
        · cases h
        · obtain ⟨⟨⟩, hcheck, h⟩ := Outcome.bind_eq_ok.1 h
          cases h
          refine ⟨rfl, hn, fun b hb' => ?_, ⟨handler, ht, Outcome.mapError_eq_ok.1 ho⟩, hcheck⟩
          have hb := Option.eq_none_iff_forall_not_mem.2 hb
          simpa using List.find?_eq_none.1 hb b hb'
      · cases h

theorem lowerNodes_eq_ok (h : lowerNodes r done nodes = .ok stages) :
    ∃ new, stages = done ++ new ∧ new.map Stage.node = nodes ∧
      ∀ pre s post, new = pre ++ s :: post → lowerNode r (done ++ pre) s.node = .ok s := by
  induction nodes generalizing done with
  | nil =>
      cases h
      exact ⟨[], by simp⟩
  | cons n ns ih =>
      rw [lowerNodes] at h
      obtain ⟨s, hs, h⟩ := Outcome.bind_eq_ok.1 h
      obtain ⟨new, rfl, hn, hsplit⟩ := ih h
      have hsn : s.node = n := (lowerNode_eq_ok hs).1
      refine ⟨s :: new, by simp, by rw [List.map_cons, hn, hsn], ?_⟩
      intro pre s' post he
      cases pre with
      | nil =>
          rw [List.nil_append, List.cons.injEq] at he
          obtain ⟨rfl, rfl⟩ := he
          rwa [List.append_nil, hsn]
      | cons s'' pre =>
          rw [List.cons_append, List.cons.injEq] at he
          obtain ⟨rfl, he⟩ := he
          rw [List.append_cons]
          exact hsplit pre s' post he

theorem lower_eq_ok {name : String} {p : Program} (h : lower name nodes r = .ok p) :
    p.params = r.params ∧ lowerNodes r [] nodes = .ok p.stages := by
  obtain ⟨stages, hs, h⟩ := Outcome.bind_eq_ok.1 h
  cases h
  exact ⟨rfl, hs⟩

theorem ordered_of_lowerNodes (h : lowerNodes r done nodes = .ok stages) {seen : List String}
    (hs : ∀ b ∈ done.map (·.node.name), b ∈ seen) :
    (nodes.map Node.name).Nodup ∧ (∀ n ∈ nodes, n.name ∉ done.map (·.node.name)) ∧
      Graph.orderedAfter seen nodes = true := by
  induction nodes generalizing done seen with
  | nil => simp [Graph.orderedAfter]
  | cons n ns ih =>
      rw [lowerNodes] at h
      obtain ⟨s, hls, hrest⟩ := Outcome.bind_eq_ok.1 h
      obtain ⟨rfl, hn, hb, -⟩ := lowerNode_eq_ok hls
      have hnames : ∀ b, b ∈ (done ++ [s]).map (·.node.name) ↔
          b ∈ done.map (·.node.name) ∨ b = s.node.name := by simp
      have hs' : ∀ b ∈ (done ++ [s]).map (·.node.name), b ∈ s.node.name :: seen := by
        intro b hb
        rw [List.mem_cons]
        exact ((hnames b).1 hb).symm.imp_right (hs b)
      obtain ⟨hd, hfresh, ho⟩ := ih hrest hs'
      simp only [hnames, not_or] at hfresh
      refine ⟨?_, List.forall_mem_cons.2 ⟨hn, fun m hm => (hfresh m hm).1⟩, ?_⟩
      · rw [List.map_cons, List.nodup_cons]
        refine ⟨fun hmem => ?_, hd⟩
        obtain ⟨m, hm, he⟩ := List.mem_map.1 hmem
        exact (hfresh m hm).2 he
      · rw [Graph.orderedAfter, Bool.and_eq_true, Node.ready, List.all_eq_true]
        exact ⟨fun b hmem => decide_eq_true (hs b (hb b hmem)), ho⟩

theorem ordered_of_lower {name : String} {p : Program} (h : lower name nodes r = .ok p) :
    (nodes.map Node.name).Nodup ∧ Graph.orderedAfter [] nodes = true := by
  have hs : ∀ b ∈ ([] : List Stage).map (·.node.name), b ∈ ([] : List String) := by simp
  obtain ⟨hd, -, ho⟩ := ordered_of_lowerNodes (lower_eq_ok h).2 hs
  exact ⟨hd, ho⟩

/-- The operation types of the nodes are all that lowering looks up in the table. -/
theorem lowerNodes_congr {r' : Recipe}
    (ht : ∀ n ∈ nodes, r'.table.get? n.opType = r.table.get? n.opType)
    (hd : r'.device = r.device) (hp : r'.params = r.params) (hb : r'.batch = r.batch) :
    lowerNodes r' done nodes = lowerNodes r done nodes := by
  induction nodes generalizing done with
  | nil => rfl
  | cons n ns ih =>
      rw [List.forall_mem_cons] at ht
      have hn : lowerNode r' done n = lowerNode r done n := by
        simp only [lowerNode, ht.1, hd, hp, hb]
      simp only [lowerNodes, hn, ih ht.2]

/-- An operation reads what the operations in front of it produce, parameters, and the name of the
input node it belongs to. -/
theorem checkInputs_eq_ok {params : Dict Tensor} {n : Node} {produced : List String}
    {front back : List Operation} {o : Operation}
    (h : checkInputs params n produced (front ++ o :: back) = .ok ()) :
    ∀ i ∈ o.inputs, i ∈ produced ∨ i ∈ front.map Operation.name ∨ params.contains i = true ∨
      n.isInput = true ∧ i = n.name := by
  induction front generalizing produced with
  | nil =>
      rw [List.nil_append, checkInputs] at h
      split at h
      · cases h
      · next hu =>
        intro i hi
        have hi := List.find?_eq_none.1 hu i hi
        by_cases hp : i ∈ produced
        · exact Or.inl hp
        · refine Or.inr (Or.inr ?_)
          by_cases hc : params.contains i = true
          · exact Or.inl hc
          · exact Or.inr (by simpa [hp, hc] using hi)
  | cons x front ih =>
      rw [List.cons_append, checkInputs] at h
      split at h
      · cases h
      · intro i hi
        rcases ih h i hi with hp | hf | hrest
        · rcases List.mem_cons.1 hp with rfl | hp
          · exact Or.inr (Or.inl List.mem_cons_self)
          · exact Or.inl hp
        · exact Or.inr (Or.inl (List.mem_cons_of_mem _ hf))
        · exact Or.inr (Or.inr hrest)

/-! ## Shapes of lowered nodes -/

theorem exists_shapeOf {b : String} (hb : b ∈ done.map (·.node.name)) :
    ∃ s ∈ done, s.node.name = b ∧ shapeOf done b = some s.last.shape := by
  obtain ⟨s, hs, hn⟩ := List.mem_map.1 hb
  have hf : (done.find? (·.node.name = b)).isSome := by
    rw [List.find?_isSome]
    exact ⟨s, hs, by simpa using hn⟩
  obtain ⟨s', hs'⟩ := Option.isSome_iff_exists.1 hf
  refine ⟨s', List.mem_of_find?_eq_some hs', by simpa using List.find?_some hs', ?_⟩
  rw [shapeOf, hs', Option.map_some]

theorem shapeOf_append {b : String} (hb : b ∈ done.map (·.node.name)) (rest : List Stage) :
    shapeOf (done ++ rest) b = shapeOf done b := by
  obtain ⟨s, hs, hn⟩ := List.mem_map.1 hb
  have hf : (done.find? (·.node.name = b)).isSome := by
    rw [List.find?_isSome]
    exact ⟨s, hs, by simpa using hn⟩
  obtain ⟨s', hs'⟩ := Option.isSome_iff_exists.1 hf
  rw [shapeOf, List.find?_append, hs', Option.some_or, shapeOf, hs']

theorem shapeOf_of_mem (hd : (done.map (·.node.name)).Nodup) {s : Stage} (hs : s ∈ done) :
    shapeOf done s.node.name = some s.last.shape := by
  obtain ⟨s', hs', hn, he⟩ := exists_shapeOf (List.mem_map_of_mem hs)
  rw [he, List.inj_on_of_nodup_map hd hs' hs hn]

theorem map_node_stages {name : String} {p : Program} (h : lower name nodes r = .ok p) :
    p.stages.map Stage.node = nodes := by
  obtain ⟨new, he, hn, -⟩ := lowerNodes_eq_ok (lower_eq_ok h).2
  rw [he, List.nil_append, hn]

/-- Every node of a lowered list was lowered by the handler of its type, which knew the shapes of
its bottoms. -/
theorem exists_handler_of_lower {name : String} {p : Program} (h : lower name nodes r = .ok p)
    {s : Stage} (hs : s ∈ p.stages) : s.node.name ∉ s.node.bottoms ∧
    ∃ handler shape, r.table.get? s.node.opType = some handler ∧
      handler s.node shape r.params r.batch = .ok s.operations ∧
        ∀ b ∈ s.node.bottoms, ∃ S, shape b = some S ∧ shapeOf p.stages b = some S := by
  obtain ⟨new, he, -, hsplit⟩ := lowerNodes_eq_ok (lower_eq_ok h).2
  rw [List.nil_append] at he
  obtain ⟨pre, post, hp⟩ := List.append_of_mem hs
  obtain ⟨-, hn, hb, ⟨handler, ht, ho⟩, -⟩ := lowerNode_eq_ok (hsplit pre s post (he ▸ hp))
  rw [List.nil_append] at hn hb ho
  refine ⟨fun hmem => hn (hb _ hmem), handler, shapeOf pre, ht, ho, fun b hmem => ?_⟩
  obtain ⟨s', -, -, hshape⟩ := exists_shapeOf (hb b hmem)
  exact ⟨_, hshape, by rw [hp, shapeOf_append (hb b hmem), hshape]⟩

/-! ## Stages with one operation -/

def Simple (s : Stage) : Prop := ∃ o, s.operations = [o] ∧ s.node.LowersTo o

theorem map_name_operations (h : ∀ s ∈ stages, Simple s) :
    (stages.flatMap Stage.operations).map Operation.name = stages.map (·.node.name) := by
  induction stages with
  | nil => rfl
  | cons s ss ih =>
      rw [List.forall_mem_cons] at h
      obtain ⟨⟨o, ho, hl⟩, h⟩ := h
      rw [List.flatMap_cons, ho, List.singleton_append, List.map_cons, ih h, hl.name_eq,
        List.map_cons]

theorem scoped_operations {seen : List String} (h : ∀ s ∈ stages, Simple s)
    (hd : (stages.map (·.node.name)).Nodup) (hn : ∀ s ∈ stages, s.node.name ∉ seen)
    (ho : Graph.orderedAfter seen (stages.map Stage.node) = true) :
    Scoped seen (stages.flatMap Stage.operations) := by
  induction stages generalizing seen with
  | nil => trivial
  | cons s ss ih =>
      rw [List.forall_mem_cons] at h hn
      obtain ⟨⟨o, hop, hl⟩, h⟩ := h
      rw [List.map_cons, List.nodup_cons] at hd
      rw [List.map_cons, Graph.orderedAfter, Bool.and_eq_true] at ho
      rw [List.flatMap_cons, hop, List.singleton_append]
      refine ⟨hl.name_eq ▸ hn.1, fun i hi => ?_, ?_⟩
      · rcases hl.inputs i hi with hb | ⟨-, rfl⟩
        · exact Or.inl (of_decide_eq_true (List.all_eq_true.1 ho.1 i hb))
        · exact Or.inr hl.name_eq.symm
      · rw [hl.name_eq]
        refine ih h hd.2 (fun s' hs' hm => ?_) ho.2
        rcases List.mem_cons.1 hm with he | hm
        · exact hd.1 (he ▸ List.mem_map_of_mem hs')
        · exact hn.2 s' hs' hm

/-! ## Lowering that succeeds -/

/-- After nodes whose shapes fit, the node can be lowered to an operation that obeys its equation
and whose shape fits. -/
def Computes (r : Recipe) (feed : Dict Tensor) (env : String → Option Value)
    (Fit : String → Shapes → Prop) (n : Node) : Prop :=
  ∀ shape : String → Option Shapes, (∀ b ∈ n.bottoms, ∃ S, shape b = some S ∧ Fit b S) →
    ∃ handler o, r.table.get? n.opType = some handler ∧
      handler n shape r.params r.batch = .ok [o] ∧ n.LowersTo o ∧ Settles feed env o ∧
        Fit n.name o.shape

structure Sound (feed : Dict Tensor) (env : String → Option Value)
    (Fit : String → Shapes → Prop) (s : Stage) : Prop where
  simple : Simple s
  settles : ∀ o ∈ s.operations, Settles feed env o
  fits : Fit s.node.name s.last.shape

theorem checkInputs_singleton {params : Dict Tensor} {node : Node} {produced : List String}
    {o : Operation} (h : ∀ i ∈ o.inputs, i ∈ produced ∨ node.isInput = true ∧ i = node.name) :
    checkInputs params node produced [o] = .ok () := by
  have hu : unproduced? params node produced o = none := by
    rw [unproduced?, List.find?_eq_none]
    intro i hi
    rcases h i hi with hp | ⟨hin, rfl⟩
    · simp [hp]
    · simp [hin]
  rw [checkInputs, hu]
  rfl

/-- A node behind the nodes it reads is lowered when its handler makes a fitting operation of it. -/
theorem lowerNode_of_handler {n : Node} {handler : Lowering} {o : Operation}
    (hdone : ∀ s ∈ done, Simple s) (hn : n.name ∉ done.map (·.node.name))
    (hb : ∀ b ∈ n.bottoms, b ∈ done.map (·.node.name))
    (ht : r.table.get? n.opType = some handler)
    (ho : handler n (shapeOf done) r.params r.batch = .ok [o]) (hl : n.LowersTo o) :
    lowerNode r done n = .ok ⟨n, [o], List.cons_ne_nil _ _⟩ := by
  have hfind : n.bottoms.find? (· ∉ done.map (·.node.name)) = none := by
    rw [List.find?_eq_none]
    intro b hmem
    simpa using hb b hmem
  have hcheck : checkInputs r.params n ((done.flatMap Stage.operations).map Operation.name) [o] =
      .ok () := by
    refine checkInputs_singleton fun i hi => ?_
    rw [map_name_operations hdone]
    exact (hl.inputs i hi).imp_left (hb i)
  unfold lowerNode
  simp only [hn, if_false, hfind, ht, ho, Except.mapError, Outcome.ok_bind, hcheck,
    List.cons_ne_nil, dite_false]
  rfl

theorem exists_lowerNode {n : Node} (hc : Computes r feed env Fit n)
    (hdone : ∀ s ∈ done, Sound feed env Fit s) (hn : n.name ∉ done.map (·.node.name))
    (hb : ∀ b ∈ n.bottoms, b ∈ done.map (·.node.name)) :
    ∃ s, lowerNode r done n = .ok s ∧ s.node = n ∧ Sound feed env Fit s := by
  have hshape : ∀ b ∈ n.bottoms, ∃ S, shapeOf done b = some S ∧ Fit b S := by
    intro b hmem
    obtain ⟨s, hs, rfl, he⟩ := exists_shapeOf (hb b hmem)
    exact ⟨_, he, (hdone s hs).fits⟩
  obtain ⟨handler, o, ht, ho, hl, hset, hfit⟩ := hc (shapeOf done) hshape
  exact ⟨_, lowerNode_of_handler (fun s hs => (hdone s hs).simple) hn hb ht ho hl, rfl,
    ⟨o, rfl, hl⟩, by simpa using hset, hfit⟩

/-- Nodes in order are lowered when each of them is, to a stage that is as good as those before. -/
theorem exists_lowerNodes {Good : Stage → Prop}
    (hstep : ∀ n ∈ nodes, ∀ done : List Stage, (∀ s ∈ done, Good s) →
      n.name ∉ done.map (·.node.name) → (∀ b ∈ n.bottoms, b ∈ done.map (·.node.name)) →
        ∃ s, lowerNode r done n = .ok s ∧ s.node = n ∧ Good s)
    (hdone : ∀ s ∈ done, Good s) (hd : (nodes.map Node.name).Nodup)
    (hn : ∀ n ∈ nodes, n.name ∉ done.map (·.node.name)) {seen : List String}
    (hs : ∀ b ∈ seen, b ∈ done.map (·.node.name))
    (ho : Graph.orderedAfter seen nodes = true) :
    ∃ new, lowerNodes r done nodes = .ok (done ++ new) ∧ new.map Stage.node = nodes ∧
      ∀ s ∈ new, Good s := by
  induction nodes generalizing done seen with
  | nil => exact ⟨[], by simp [lowerNodes]⟩
  | cons n ns ih =>
      rw [List.forall_mem_cons] at hstep hn
      rw [List.map_cons, List.nodup_cons] at hd
      rw [Graph.orderedAfter, Bool.and_eq_true] at ho
      have hb : ∀ b ∈ n.bottoms, b ∈ done.map (·.node.name) := fun b hb =>
        hs b (of_decide_eq_true (List.all_eq_true.1 ho.1 b hb))
      obtain ⟨s, hls, rfl, hgood⟩ := hstep.1 done hdone hn.1 hb
      have hnames : (done ++ [s]).map (·.node.name) = done.map (·.node.name) ++ [s.node.name] := by
        rw [List.map_append, List.map_cons, List.map_nil]
      have hdone' : ∀ s' ∈ done ++ [s], Good s' := by
        intro s' hs'
        rcases List.mem_append.1 hs' with hs' | hs'
        · exact hdone s' hs'
        · rwa [List.mem_singleton.1 hs']
      have hn' : ∀ m ∈ ns, m.name ∉ (done ++ [s]).map (·.node.name) := by
        intro m hm
        rw [hnames, List.mem_append, List.mem_singleton, not_or]
        exact ⟨hn.2 m hm, fun he => hd.1 (he ▸ List.mem_map_of_mem hm)⟩
      have hs' : ∀ b ∈ s.node.name :: seen, b ∈ (done ++ [s]).map (·.node.name) := by
        intro b hb
        rw [hnames, List.mem_append, List.mem_singleton]
        rcases List.mem_cons.1 hb with rfl | hb
        · exact Or.inr rfl
        · exact Or.inl (hs b hb)
      obtain ⟨new, hlr, hnew, hall⟩ := ih hstep.2 hdone' hd.2 hn' hs' ho.2
      refine ⟨s :: new, ?_, by rw [List.map_cons, hnew], ?_⟩
      · rw [lowerNodes, hls, Outcome.ok_bind, hlr, List.append_assoc, List.singleton_append]
      · rw [List.forall_mem_cons]
        exact ⟨hgood, hall⟩

/-- Nodes in order that can be lowered to operations obeying their equations make a program that
runs to its end and computes the solution. -/
theorem exists_run_of_computes (name : String) (hp : r.params = .empty)
    (hc : ∀ n ∈ nodes, Computes r feed env Fit n) (hd : (nodes.map Node.name).Nodup)
    (ho : Graph.orderedAfter [] nodes = true) :
    ∃ p store, lower name nodes r = .ok p ∧ p.runFrom feed none [] p.operations = .ok store ∧
      ∀ n ∈ nodes, ∃ v, store.lookup n.name = some v ∧ env n.name = some v := by
  have hdone : ∀ s ∈ ([] : List Stage), Sound feed env Fit s := by simp
  have hseen : ∀ b ∈ ([] : List String), b ∈ ([] : List Stage).map (·.node.name) := by simp
  obtain ⟨stages, hl, hnodes, hsound⟩ := exists_lowerNodes
    (fun n hn _ hdone hname hb => exists_lowerNode (hc n hn) hdone hname hb) hdone hd (by simp)
    hseen ho
  rw [List.nil_append] at hl
  have hsimple : ∀ s ∈ stages, Simple s := fun s hs => (hsound s hs).simple
  have hnames : stages.map (·.node.name) = nodes.map Node.name := by
    rw [← hnodes, List.map_map]
    rfl
  -- the order of the nodes is that of their operations
  have hscoped : Scoped [] (stages.flatMap Stage.operations) :=
    scoped_operations hsimple (hnames ▸ hd) (by simp) (hnodes ▸ ho)
  have hset : ∀ o ∈ stages.flatMap Stage.operations, Settles feed env o := by
    intro o hmem
    obtain ⟨s, hs, hmem⟩ := List.mem_flatMap.1 hmem
    exact (hsound s hs).settles o hmem
  obtain ⟨store, hr, ha⟩ :=
    runFrom_of_settles (p := ⟨name, r.device, r.batch, r.params, stages⟩) hp hscoped agrees_nil hset
  refine ⟨_, store, ?_, hr, fun n hn => ha.computed n.name ?_⟩
  · rw [lower, hl]
    rfl
  · rw [map_name_operations hsimple, hnames, List.append_nil, List.mem_reverse]
    exact List.mem_map_of_mem hn

end Program

end Dataflow
