import Dataflow.Proofs.Program.Nested
import Dataflow.Proofs.Substitution.Wiring

/-!
# What a rewritten graph computes

A graph and its rewrite compute the same values for the names they have in common, if collapsed
nodes are executed by running the interiors of their partitions. The values of the rewritten graph
are those of the graph together with a tuple for each collapsed node; `extend` names them, and each
kind of node of the rewritten graph is shown to obey its equation under them. The theory of runs as
equations does the rest, since it does not mind that the two graphs are ordered differently.
-/

namespace Dataflow.Substitution.Context

open Dataflow.Partition Program Cpu

variable {c : Context} {new : List (String × Partition)} {net : List Node}

def extend (new : List (String × Partition)) (outs : String × Partition → List Tensor)
    (env : String → Option Value) (name : String) : Option Value :=
  match new.lookup name with
  | some p => some (.tuple (outs (name, p)))
  | none => env name

/-- A collapsed node has the shape of its tuple; any other node has a shape that can take the
place of the recorded one. -/
def FitsExtended (new : List (String × Partition)) (env : String → Option Value)
    (shape : String → Option Shapes) (name : String) (S : Shapes) : Prop :=
  (∀ e ∈ new, e.1 = name → S = .tuple e.2.shapes) ∧ Fits env shape name S

/-- What is known of a run of the graph with the values `env`: every node is explained, and the
collapsed partitions read tensors that their producers admit and hand out tensors. -/
structure Observed (c : Context) (new : List (String × Partition)) (batch : Int)
    (feed : Dict Tensor) (env : String → Option Value) (shape : String → Option Shapes) :
    Prop where
  ordered : c.graph.isTopologicallyOrdered = true
  explained : ∀ n ∈ c.graph.nodes, Explained n batch feed env shape
  missing : ∀ i, i ∉ c.graph.names → env i = none
  entering : ∀ e ∈ new, ∀ b ∈ e.2.bottoms, Admitted c.graph env b
  leaving : ∀ e ∈ new, ∀ o ∈ e.2.outputNames, ∃ t, env o = some (.tensor t)
  inputs : ∀ n ∈ c.graph.nodes, c.claims n = true → n.isInput = false

theorem Observed.exists_tensors {batch : Int} {feed : Dict Tensor}
    {env : String → Option Value} {shape : String → Option Shapes}
    (hobs : Observed c new batch feed env shape) {e : String × Partition} (he : e ∈ new) :
    ∃ ins, List.Forall₂ (fun b t => env b = some (.tensor t)) e.2.bottoms ins := by
  refine Outcome.exists_forall₂ fun b hb => ?_
  obtain ⟨-, -, -, s, t, -, ht, -⟩ := hobs.entering e he b hb
  exact ⟨t, ht⟩

namespace Contraction

variable (h : Contraction c new net) {outs : String × Partition → List Tensor}
  {env : String → Option Value} {shape : String → Option Shapes} {feed : Dict Tensor}
  {programs : Dict Program} {batch : Int} {r : Recipe}

include h

theorem extend_id {e : String × Partition} (he : e ∈ new) :
    extend new outs env e.1 = some (.tuple (outs e)) := by
  rw [extend, (Dict.lookup_eq_some_iff_mem h.replaced.nodup).2 he]

theorem extend_of_mem {name : String} (hn : name ∈ c.graph.names) :
    extend new outs env name = env name := by
  unfold extend
  split
  · next p hp => exact absurd hn (h.id_notMem (Dict.mem_of_lookup_eq_some hp))
  · rfl

theorem fitsExtended_of_mem {name : String} (hn : name ∈ c.graph.names) {S : Shapes}
    (hS : Fits env shape name S) : FitsExtended new env shape name S :=
  ⟨fun _ he hid => absurd (hid ▸ hn) (h.id_notMem he), hS⟩

/-! ## The three kinds of nodes -/

theorem computes_kept {x : Node} (hx : x ∈ c.graph.nodes)
    (hex : Explained x batch feed env shape) (hne : x.opType ≠ c.options.collapsedType)
    (hp : r.params = .empty) (ht : r.table = nestedTable programs c.options.collapsedType)
    (hb : r.batch = batch) (tops : List String) :
    Computes r feed (extend new outs env) (FitsExtended new env shape) { x with tops } := by
  have hmem : x.name ∈ c.graph.names := List.mem_map_of_mem hx
  refine hex.computes tops hp ?_ (fun _ => ⟨hb, rfl⟩) (fun b hb' => ?_) (h.extend_of_mem hmem)
    (fun b _ S hS => hS.2) fun S hS => h.fitsExtended_of_mem hmem hS
  · rw [ht, nestedTable_get?_of_ne hne]
  · exact h.extend_of_mem (c.graph.closed x hx b hb')

theorem computes_accessor {e : String × Partition} (he : e ∈ new) {x : Node}
    (hx : x ∈ c.accessors e.2)
    (hout : List.Forall₂ (fun o t => env o = some (.tensor t)) e.2.outputNames (outs e))
    (hct : Cpu.table.get? c.options.collapsedType = none)
    (hp : r.params = .empty) (ht : r.table = nestedTable programs c.options.collapsedType)
    (tops : List String) :
    Computes r feed (extend new outs env) (FitsExtended new env shape) { x with tops } := by
  obtain ⟨i, o, s, ho, hs, rfl⟩ := mem_accessors.1 hx
  have hsum := h.summary he
  have hmem : o ∈ c.graph.names :=
    memberNames_subset (hsum.outputNames_subset (List.mem_of_getElem? ho))
  obtain ⟨t, hti, hto⟩ := Outcome.exists_getElem?_of_forall₂ hout ho
  have hhandler : (Node.accessorType, Cpu.accessor) ∈ handlers := by simp [handlers]
  have hne : Node.accessorType ≠ c.options.collapsedType := by
    intro hne
    rw [← hne, table_get?.2 ⟨Cpu.accessor, hhandler, rfl⟩] at hct
    cases hct
  intro known hknown
  obtain ⟨S, hS, hfit⟩ := hknown e.1 (by simp [accessor, hsum.id_eq])
  have hshape : S = .tuple e.2.shapes := hfit.1 e he rfl
  have hok : Cpu.accessor { c.accessor e.2 o s i with tops } known .empty r.batch =
      .ok ((Kernel.element i).operation { c.accessor e.2 o s i with tops } [e.1]
        (.tensor s)) := by
    refine accessor_eq_ok.2 ⟨i, rfl, e.1, ?_, ?_⟩
    · rw [accessor, hsum.id_eq]
    · rw [elementShape, hS, hshape, Option.bind_some, Shapes.get?, hs]
      rfl
  refine ⟨Handler.lowering Cpu.accessor,
    (Kernel.element i).operation { c.accessor e.2 o s i with tops } [e.1] (.tensor s), ?_, ?_,
    lowersTo_of_handler hhandler hok, ⟨[.tuple (outs e)], .tensor t, .cons ?_ .nil, ?_, ?_⟩, ?_⟩
  · rw [ht]
    exact (nestedTable_get?_of_ne hne).trans (table_get?.2 ⟨Cpu.accessor, hhandler, rfl⟩)
  · rw [hp]
    exact lowering_eq_ok.2 ⟨_, hok, rfl⟩
  · have hid : e.1 ≠ o := fun hid => h.id_notMem he (hid ▸ hmem)
    exact (if_neg hid).trans (h.extend_id he)
  · refine Outcome.mapError_eq_ok.2 (Outcome.bind_eq_ok.2 ⟨.tuple (outs e), rfl, ?_⟩)
    refine Outcome.bind_eq_ok.2 ⟨t, Outcome.mapError_eq_ok.2 ?_, rfl⟩
    rw [Value.element, hti]
  · exact (h.extend_of_mem hmem).trans hto
  · refine h.fitsExtended_of_mem hmem fun v S hv _ => ?_
    obtain rfl := Option.some.inj (hto.symm.trans hv)
    exact Shapes.follows_tensor rfl

theorem computes_collapsed {e : String × Partition} (he : e ∈ new) {x : Node}
    (hx : c.collapse e.2 = .ok x) (ho : c.options.validate = .ok ()) {program : Program}
    (hprog : programs.get? e.1 = some program) {ins : List Tensor}
    (hin : List.Forall₂ (fun b t => env b = some (.tensor t)) e.2.bottoms ins)
    (hrun : runInterior program e.2.inputNames e.2.outputNames (ins.map .tensor) =
      .ok (.tuple (outs e)))
    (hnone : env e.1 = none)
    (ht : r.table = nestedTable programs c.options.collapsedType) (tops : List String) :
    Computes r feed (extend new outs env) (FitsExtended new env shape) { x with tops } := by
  obtain ⟨-, -, interior, attrs, -, hattrs, rfl⟩ := collapse_eq_ok hx
  have hsum := h.summary he
  obtain ⟨hinNames, houtNames⟩ := get?_collapsedAttrs ho hattrs
  have hget : programs.get? e.2.id = some program := by rwa [hsum.id_eq]
  intro known _
  refine ⟨collapsedLowering programs, collapsedOperation { c.collapsedNode e.2 attrs with tops }
    program e.2.inputNames e.2.outputNames, ?_,
    collapsedLowering_eq_ok hget hinNames houtNames, ⟨rfl, fun i hi => Or.inl ?_⟩,
    ⟨ins.map .tensor, .tuple (outs e), ?_, hrun, ?_⟩, fun e' he' hid => ?_, fun v S hv _ => ?_⟩
  · rw [ht]
    exact nestedTable_get?_self
  · have hi' : i ∈ e.2.inputNames := hi
    rw [hsum.inputNames_eq] at hi'
    exact hi'
  · change List.Forall₂ _ e.2.inputNames _
    rw [hsum.inputNames_eq, List.forall₂_map_right_iff]
    have hbottom : ∀ b ∈ e.2.bottoms, b ∈ c.graph.names := fun b hb => hsum.bottoms_subset hb
    refine ((List.forall₂_and_left _ _).2 ⟨hbottom, hin⟩).imp fun b t hbt => ?_
    have hne : b ≠ e.2.id := fun hid => h.id_notMem he (hsum.id_eq ▸ hid ▸ hbt.1)
    exact (if_neg hne).trans ((h.extend_of_mem hbt.1).trans hbt.2)
  · change extend new outs env e.2.id = _
    rw [hsum.id_eq, h.extend_id he]
  · obtain rfl := h.eq_of_id_eq he' he (hid.trans hsum.id_eq)
    rfl
  · change env e.2.id = some v at hv
    rw [hsum.id_eq, hnone] at hv
    cases hv

/-! ## All nodes -/

theorem isInput_of_member {e : String × Partition} (hobs : Observed c new batch feed env shape)
    (he : e ∈ new) : ∀ n ∈ members c.graph e.1, n.isInput = false := by
  intro n hn
  obtain ⟨hn, hs⟩ := mem_members.1 hn
  exact hobs.inputs n hn (h.replaced.claims_of_subgraph he hs)

theorem exists_covers (hobs : Observed c new batch feed env shape) :
    ∃ programs, Covers programs c.partitions c.options.target := by
  have hlower : ∀ e ∈ new, ∃ x : String × Program, x.1 = e.1 ∧
      lower e.1 e.2.interior interiorRecipe = .ok x.2 := by
    intro e he
    have hsum := h.summary he
    obtain ⟨ins, hin⟩ := hobs.exists_tensors he
    obtain ⟨program, -, hl, -⟩ := hsum.exists_run_interior hobs.ordered hobs.explained
      (h.isInput_of_member hobs he) (hobs.entering e he) (hsum.get?_zip hin)
    exact ⟨(e.1, program), rfl, hl⟩
  obtain ⟨es, hes⟩ := Outcome.exists_forall₂ hlower
  refine ⟨⟨es⟩, fun id p hp ht => ?_⟩
  have hmem : new.lookup id = some p :=
    (Dict.lookup_eq_some_iff_mem h.replaced.nodup).2 (h.mem_new_iff.2 ⟨hp, ht⟩)
  exact Dict.exists_lookup_of_forall₂
    (R := fun e program => lower e.1 e.2.interior interiorRecipe = .ok program) hes hmem

variable (hobs : Observed c new r.batch feed env shape) (hv : c.options.validate = .ok ())
  (hm : Node.Mirrored c.graph.nodes)
  (hne : ∀ n ∈ c.graph.nodes, n.opType ≠ c.options.collapsedType)
  (hct : Cpu.table.get? c.options.collapsedType = none)
  (hcov : Covers programs c.partitions c.options.target)
  (hp : r.params = .empty) (ht : r.table = nestedTable programs c.options.collapsedType)

include hobs hv hm hne hct hcov hp ht

/-- Every node of the rewritten graph obeys its equation under the extended values. -/
theorem computes_net
    (hout : ∀ e ∈ new, List.Forall₂ (fun o t => env o = some (.tensor t)) e.2.outputNames (outs e))
    {x : Node} (hx : x ∈ net) (tops : List String) :
    Computes r feed (extend new outs env) (FitsExtended new env shape) { x with tops } := by
  rcases h.mem_net.1 hx with ⟨hx, -⟩ | ⟨e, he, hx⟩ | ⟨e, he, hx⟩
  · exact h.computes_kept hx (hobs.explained x hx) (hne x hx) hp ht rfl tops
  · have hsum := h.summary he
    obtain ⟨hget, htarget⟩ := h.mem_new_iff.1 he
    obtain ⟨program, hprog, hl⟩ := hcov e.1 e.2 hget htarget
    obtain ⟨ins, hin⟩ := hobs.exists_tensors he
    have houts : e.2.outputNames ≠ [] := by
      have hid := ((tagged_eq_ok h.tagged).1 hget).1
      rw [hsum.outputNames_eq, Ne, List.map_eq_nil_iff]
      exact outputs_ne_nil hm (Node.not_cyclic_of_orderedAfter c.graph.nodup hobs.ordered) hid
    have hrun := hsum.runInterior_eq_ok hobs.ordered hobs.explained (h.isInput_of_member hobs he)
      (hobs.entering e he) hl houts hin (hout e he)
    exact h.computes_collapsed he hx hv hprog hin hrun (hobs.missing e.1 (h.id_notMem he)) ht tops
  · exact h.computes_accessor he hx (hout e he) hct hp ht tops

/-- The rewritten graph can be lowered, runs to its end, and computes the values of the graph under
its names. -/
theorem exists_run {nodes : List Node} {es : List (String × Partition)}
    (hperm : nodes.Perm (net.map (c.relinked es)))
    (hord : Graph.orderedAfter [] nodes = true) (name : String) :
    ∃ p store, lower name nodes r = .ok p ∧ p.runFrom feed none [] p.operations = .ok store ∧
      ∀ n ∈ nodes, n.name ∈ c.graph.names →
        ∃ v, store.lookup n.name = some v ∧ env n.name = some v := by
  have houts : ∀ e : String × Partition, ∃ ts, e ∈ new →
      List.Forall₂ (fun o t => env o = some (.tensor t)) e.2.outputNames ts := by
    intro e
    by_cases he : e ∈ new
    · obtain ⟨ts, hts⟩ := Outcome.exists_forall₂ (hobs.leaving e he)
      exact ⟨ts, fun _ => hts⟩
    · exact ⟨[], fun he' => absurd he' he⟩
  -- one tuple for each entry, whatever it is for those that are not collapsed
  choose outs hout using houts
  have hc : ∀ n ∈ nodes,
      Computes r feed (extend new outs env) (FitsExtended new env shape) n := by
    intro n hn
    obtain ⟨x, hx, rfl⟩ := List.mem_map.1 (hperm.mem_iff.1 hn)
    rw [relinked_eq]
    exact h.computes_net hobs hv hm hne hct hcov hp ht hout hx _
  have hd : (nodes.map Node.name).Nodup := by
    rw [(hperm.map Node.name).nodup_iff, map_name_relinked]
    exact h.nodup_net
  obtain ⟨p, store, hl, hr, hstore⟩ := exists_run_of_computes name hp hc hd hord
  refine ⟨p, store, hl, hr, fun n hn hmem => ?_⟩
  obtain ⟨v, hv, hv'⟩ := hstore n hn
  exact ⟨v, hv, (h.extend_of_mem hmem).symm.trans hv'⟩

end Contraction

end Dataflow.Substitution.Context

namespace Dataflow.Program

/-- The run of the program of a graph agrees with what is declared at the boundary of the partitions
of a device: what enters one is a tensor that the first shape of its producer admits, and what
leaves one is a tensor. -/
structure Conforms (p : Program) (feed : Dict Tensor) (g : Graph) (ps : Dict Partition)
    (target : String) : Prop where
  entering : ∀ id q, ps.get? id = some q → q.target = target → ∀ b ∈ q.bottoms,
    ∃ n ∈ g.nodes, n.name = b ∧ ∃ s t, n.shapes.get? 0 = some s ∧
      p.run feed [b] none = .ok [.tensor t] ∧ s.admits t.dims = true
  leaving : ∀ id q, ps.get? id = some q → q.target = target → ∀ o ∈ q.outputNames,
    ∃ t, p.run feed [o] none = .ok [.tensor t]

theorem run_singleton_eq_ok {p : Program} {feed : Dict Tensor} {store : Store} {name : String}
    {v : Value} (hr : p.runFrom feed none [] p.operations = .ok store) :
    p.run feed [name] none = .ok [v] ↔ store.lookup name = some v := by
  rw [run_eq_ok hr (List.cons_ne_nil _ _), List.forall₂_cons]
  simp

end Dataflow.Program

namespace Dataflow.Builder

open Program Substitution

variable {d : Draft} {g h : Graph} {o : BuildOptions} {r : BuildReport} {v : Bool}
  {ps : Dict Partition} {device name : String} {batch : Int} {feed : Dict Tensor} {p : Program}
  {last : List Value}

/-- If collapsed nodes are executed by running their interiors, a graph and its rewrite compute the
same values under the names they have in common. -/
theorem run_build (hd : d.build = .ok g)
    (hb : ({ verify := v } : Builder).build g o = .ok (h, r)) (hps : Partition.tagged g = .ok ps)
    (hne : ∀ n ∈ g.nodes, n.opType ≠ o.collapsedType)
    (hct : Cpu.table.contains o.collapsedType = false)
    (hin : ∀ n ∈ g.nodes, n.subgraph.isSome = true → n.target = o.target → n.isInput = false)
    (hl : lower name g.nodes ⟨device, Cpu.table, .empty, batch⟩ = .ok p)
    (hr : p.run feed [] none = .ok last) (hc : p.Conforms feed g ps o.target) :
    (∃ programs, Covers programs ps o.target) ∧
      ∀ programs, Covers programs ps o.target →
        lower name g.nodes ⟨device, nestedTable programs o.collapsedType, .empty, batch⟩ = .ok p ∧
          ∃ p', lower name h.nodes
              ⟨device, nestedTable programs o.collapsedType, .empty, batch⟩ = .ok p' ∧
            (∃ last', p'.run feed [] none = .ok last') ∧
              ∀ outputs ≠ [], (∀ x ∈ outputs, x ∈ g.names ∧ x ∈ h.names) →
                ∃ values, p.run feed outputs none = .ok values ∧
                  p'.run feed outputs none = .ok values := by
  obtain ⟨hvalid, hord⟩ := Graph.validate_of_build hd
  obtain ⟨ps', new, net, hcon, hperm, hord', -⟩ := exists_contraction hb
  obtain ⟨hv, -⟩ := build_eq_ok.1 hb
  obtain rfl : ps' = ps := Except.ok.inj (hcon.tagged.symm.trans hps)
  obtain ⟨store, hstore⟩ := exists_runFrom_of_run hr
  obtain ⟨hx, -, hnone⟩ := Cpu.explained_of_run hl rfl rfl hstore
  have hobs : Context.Observed (contextOf g o ps') new batch feed (valueOf store)
      (shapeOf p.stages) := by
    refine ⟨hord, hx, hnone, fun e he b hbottom => ?_, fun e he i hi => ?_, fun n hn hclaimed => ?_⟩
    · obtain ⟨hget, ht⟩ := hcon.mem_new_iff.1 he
      obtain ⟨n, hn, hname, s, t, hs, hrun, hadm⟩ := hc.entering e.1 e.2 hget ht b hbottom
      exact ⟨n, hn, hname, s, t, hs, (run_singleton_eq_ok hstore).1 hrun, hadm⟩
    · obtain ⟨hget, ht⟩ := hcon.mem_new_iff.1 he
      obtain ⟨t, hrun⟩ := hc.leaving e.1 e.2 hget ht i hi
      exact ⟨t, (run_singleton_eq_ok hstore).1 hrun⟩
    · obtain ⟨hs, ht⟩ := (Context.claims_iff_of_tagged (c := contextOf g o ps') hps hn).1 hclaimed
      exact hin n hn hs ht
  refine ⟨hcon.exists_covers hobs, fun programs hcov => ?_⟩
  have hmissing : Cpu.table.get? o.collapsedType = none := by
    rw [← Option.isNone_iff_eq_none, ← Option.isSome_eq_false_iff]
    exact hct
  obtain ⟨p', store', hl', hstore', hagree⟩ :=
    hcon.exists_run (r := ⟨device, nestedTable programs o.collapsedType, .empty, batch⟩) hobs hv
      (Graph.validate_eq_ok.1 hvalid).1 hne hmissing hcov rfl rfl hperm hord' name
  refine ⟨(lower_nestedTable hne).trans hl, p', hl', ⟨_, by rw [run_eq, hstore']; rfl⟩,
    fun outputs hreq hout => ?_⟩
  have hvalues : ∀ x ∈ outputs, ∃ w, store.lookup x = some w ∧ store'.lookup x = some w := by
    intro x hmem
    obtain ⟨hg, hh⟩ := hout x hmem
    obtain ⟨n, hn, rfl⟩ := List.mem_map.1 hh
    obtain ⟨w, hw', hw⟩ := hagree n hn hg
    exact ⟨w, hw, hw'⟩
  obtain ⟨values, hvs⟩ := Outcome.exists_forall₂ hvalues
  exact ⟨values, (run_eq_ok hstore hreq).2 (hvs.imp fun _ _ hw => hw.1),
    (run_eq_ok hstore' hreq).2 (hvs.imp fun _ _ hw => hw.2)⟩

/-- A copy of the input and a copy of the copy, both made on `dpu`, and the pair of the two. -/
def fork : Graph where
  name := "fork"
  nodes := [
    { name := "x", types := ["Input"], shapes := .tensor ⟨[1]⟩, tops := ["r"] },
    { name := "r", types := ["Identity"], shapes := .tensor ⟨[1]⟩, bottoms := ["x"],
      tops := ["s", "pair"], subgraph := some "xp0", target := "dpu" },
    { name := "s", types := ["Identity"], shapes := .tensor ⟨[1]⟩, bottoms := ["r"],
      tops := ["pair"], subgraph := some "xp0", target := "dpu" },
    { name := "pair", types := ["Tuple"], shapes := .tuple [⟨[1]⟩, ⟨[1]⟩], bottoms := ["s", "r"] }]
  compilerOutput := none
  nodup := by simp
  closed := by simp

def forkFeed : Dict Tensor := ⟨[("x", ⟨[1], [⟨7⟩]⟩)]⟩

theorem boundary_fork : ∃ ps, Partition.tagged fork = .ok ps ∧
    ∀ id q, ps.get? id = some q → q.bottoms = ["x"] ∧ q.outputNames = ["r", "s"] := by
  have h : (Partition.tagged fork).map (fun ps => ps.entries.map fun e =>
      (e.2.bottoms, e.2.outputNames)) = .ok [(["x"], ["r", "s"])] := by decide +kernel
  obtain ⟨ps, hps, he⟩ := Outcome.map_eq_ok.1 h
  refine ⟨ps, hps, fun id q hq => ?_⟩
  have hmem : (q.bottoms, q.outputNames) ∈ ps.entries.map fun e =>
      (e.2.bottoms, e.2.outputNames) :=
    List.mem_map.2 ⟨(id, q), Dict.mem_of_lookup_eq_some hq, rfl⟩
  rw [he, List.mem_singleton, Prod.mk.injEq] at hmem
  exact hmem

theorem conforms_fork : ∃ ps p, Partition.tagged fork = .ok ps ∧
    lower "fork" fork.nodes ⟨"cpu", Cpu.table, .empty, openBatch⟩ = .ok p ∧
      (∃ last, p.run forkFeed [] none = .ok last) ∧ p.Conforms forkFeed fork ps "dpu" := by
  have h : (lower "fork" fork.nodes ⟨"cpu", Cpu.table, .empty, openBatch⟩).map
      (fun p => [["x"], ["r"], ["s"], []].map fun names => p.run forkFeed names none) =
        .ok (List.replicate 3 (.ok [.tensor ⟨[1], [⟨7⟩]⟩]) ++
          [.ok [.tuple [⟨[1], [⟨7⟩]⟩, ⟨[1], [⟨7⟩]⟩]]]) := by decide +kernel
  obtain ⟨ps, hps, hq⟩ := boundary_fork
  obtain ⟨p, hl, hruns⟩ := Outcome.map_eq_ok.1 h
  obtain ⟨hx, hr, hs, hlast⟩ : _ ∧ _ ∧ _ ∧ _ := by simpa using hruns
  refine ⟨ps, p, hps, hl, ⟨_, hlast⟩, fun id q hget _ b hb => ?_, fun id q hget _ o ho => ?_⟩
  · rw [(hq id q hget).1, List.mem_singleton] at hb
    subst hb
    exact ⟨_, List.mem_cons_self, rfl, ⟨[1]⟩, ⟨[1], [⟨7⟩]⟩, rfl, hx, by decide⟩
  · rw [(hq id q hget).2] at ho
    rcases List.mem_pair.1 ho with rfl | rfl
    · exact ⟨_, hr⟩
    · exact ⟨_, hs⟩

theorem run_build_fork : ∃ h r ps p last,
    (Draft.mk "fork" fork.nodes none).build = .ok fork ∧
      ({} : Builder).build fork { target := "dpu", collapsedType := "DPU" } = .ok (h, r) ∧
        h.names = ["x", "xp0", "r", "s", "pair"] ∧ Partition.tagged fork = .ok ps ∧
          lower "fork" fork.nodes ⟨"cpu", Cpu.table, .empty, openBatch⟩ = .ok p ∧
            p.run forkFeed [] none = .ok last ∧ p.Conforms forkFeed fork ps "dpu" ∧
              ∃ programs p', lower "fork" h.nodes
                  ⟨"cpu", nestedTable programs "DPU", .empty, openBatch⟩ = .ok p' ∧
                ∃ values, p.run forkFeed ["pair"] none = .ok values ∧
                  p'.run forkFeed ["pair"] none = .ok values := by
  have hd : (Draft.mk "fork" fork.nodes none).build = .ok fork :=
    Graph.build_of_ordered rfl (by decide +kernel) (by decide +kernel)
  have hbuild : (({} : Builder).build fork { target := "dpu", collapsedType := "DPU" }).map
      (fun x => x.1.names) = .ok ["x", "xp0", "r", "s", "pair"] := by decide +kernel
  obtain ⟨⟨h, r⟩, hb, hnames⟩ := Outcome.map_eq_ok.1 hbuild
  obtain ⟨ps, p, hps, hl, ⟨last, hr⟩, hc⟩ := conforms_fork
  obtain ⟨⟨programs, hcov⟩, hrun⟩ := run_build hd hb hps (by decide +kernel) (by decide +kernel)
    (by decide +kernel) hl hr hc
  obtain ⟨-, p', hl', -, hout⟩ := hrun programs hcov
  refine ⟨h, r, ps, p, last, hd, hb, hnames, hps, hl, hr, hc, programs, p', hl',
    hout ["pair"] (List.cons_ne_nil _ _) fun x hx => ?_⟩
  obtain rfl := List.mem_singleton.1 hx
  exact ⟨by decide +kernel, by rw [hnames]; decide +kernel⟩

end Dataflow.Builder
