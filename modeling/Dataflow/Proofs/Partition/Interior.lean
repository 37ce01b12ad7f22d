import Dataflow.Program.Nested
import Dataflow.Proofs.Cpu.Transport
import Dataflow.Proofs.Partition.Subgraph

/-!
# Interiors as programs

The interior of a partition of a graph in order is in order, so it can be lowered. After a run of
the graph in which tensors enter the partition that their producers declare, the program can be fed
with these tensors; it then computes what the members computed, and hands out the tensors that leave
the partition.
-/

namespace Dataflow.Partition

open Cpu Program

variable {g : Graph} {id : String} {p : Partition}

def interiorRecipe : Recipe := ⟨"cpu", Cpu.table, .empty, openBatch⟩

/-- The value of the node `b` is a tensor that the first shape declared by the node admits. -/
def Admitted (g : Graph) (env : String → Option Value) (b : String) : Prop :=
  ∃ n ∈ g.nodes, n.name = b ∧ ∃ s t, n.shapes.get? 0 = some s ∧ env b = some (.tensor t) ∧
    s.admits t.dims = true

variable {batch : Int} {feed feed' : Dict Tensor} {env : String → Option Value}
  {shape : String → Option Shapes}

theorem withBatch_openBatch (s : TensorShape) : s.withBatch openBatch = s := by
  unfold TensorShape.withBatch
  split
  · rw [if_neg (by simp [openBatch])]
  · rfl

/-- A stand-in delivers the tensor that it is fed. -/
theorem computes_standIn {b : String} {x : Node} {inside : List String} {target : String}
    (hx : g.node b = .ok x) (ha : Admitted g env b)
    (hf : (feed'.get? b).map Value.tensor = env b) :
    Computes interiorRecipe feed' env (Fits env shape) (standIn id target inside x) := by
  obtain ⟨hmem, rfl⟩ := Graph.node_eq_ok.1 hx
  obtain ⟨n, hn, hname, s, t, hs, ht, hadm⟩ := ha
  obtain rfl : n = x := Node.eq_of_name_eq g.nodup hn hmem hname
  have hm : ("Input", input) ∈ handlers := List.mem_cons_self
  intro known _
  have hok : input (standIn id target inside n) known .empty openBatch =
      .ok ((Kernel.input s).operation (standIn id target inside n) [n.name] (.tensor s)) := by
    refine input_eq_ok.2 ⟨s, ?_, by rw [withBatch_openBatch]; rfl⟩
    rw [standIn, hs]
    rfl
  refine ⟨Handler.lowering input,
    (Kernel.input s).operation (standIn id target inside n) [n.name] (.tensor s),
    table_get?.2 ⟨input, hm, rfl⟩, lowering_eq_ok.2 ⟨_, hok, rfl⟩, lowersTo_of_handler hm hok,
    ⟨[.tensor t], .tensor t, .cons ?_ .nil, ?_, ht⟩, fun v S hv _ => ?_⟩
  · exact (if_pos rfl).trans (hf.trans ht)
  · refine Outcome.mapError_eq_ok.2 (Outcome.bind_eq_ok.2 ⟨t, rfl, ?_⟩)
    rw [if_pos hadm]
    rfl
  · obtain rfl := Option.some.inj (ht.symm.trans hv)
    exact Shapes.follows_tensor rfl

namespace Summary

/-- Tensors paired with the names that enter are found under these names. -/
theorem get?_zip (h : Summary g id p) {ins : List Tensor}
    (hin : List.Forall₂ (fun b t => env b = some (.tensor t)) p.bottoms ins) :
    ∀ b ∈ p.bottoms, ((Dict.ofList (p.bottoms.zip ins)).get? b).map Value.tensor = env b := by
  have hkeys : ((p.bottoms.zip ins).map Prod.fst) = p.bottoms :=
    List.map_fst_zip (Nat.le_of_eq hin.length_eq)
  intro b hb
  rw [← hkeys] at hb
  obtain ⟨⟨b', t⟩, hz, rfl⟩ := List.mem_map.1 hb
  have hget : (Dict.ofList (p.bottoms.zip ins)).get? b' = some t :=
    (Dict.get?_ofList (by rw [hkeys]; exact h.nodup_bottoms)).2 hz
  rw [hget, List.forall₂_zip hin hz]
  rfl

variable (h : Summary g id p) (ho : g.isTopologicallyOrdered = true)
  (hx : ∀ n ∈ g.nodes, Explained n batch feed env shape)
  (hi : ∀ n ∈ members g id, n.isInput = false) (hb : ∀ b ∈ p.bottoms, Admitted g env b)

include h ho hx hi hb

/-- Fed with what enters the partition, the interior runs to its end and computes what the graph
computed. -/
theorem exists_run_interior (hf : ∀ b ∈ p.bottoms, (feed'.get? b).map Value.tensor = env b) :
    ∃ program store, lower id p.interior interiorRecipe = .ok program ∧
      program.runFrom feed' none [] program.operations = .ok store ∧
        ∀ n ∈ p.interior, ∃ v, store.lookup n.name = some v ∧ env n.name = some v := by
  have hc : ∀ n ∈ p.interior, Computes interiorRecipe feed' env (Fits env shape) n := by
    obtain ⟨producers, hp, hint⟩ := h.interior_eq
    intro n hn
    rw [hint, List.mem_append] at hn
    rcases hn with hn | hn
    · obtain ⟨x, hx', rfl⟩ := List.mem_map.1 hn
      obtain ⟨b, hb', hnode⟩ := Outcome.exists_left_of_mem hp hx'
      exact computes_standIn hnode (hb b hb') (hf b hb')
    · obtain ⟨m, hm, rfl⟩ := List.mem_map.1 hn
      refine (hx m (mem_members.1 hm).1).computes _ rfl rfl (fun hin => ?_) (fun _ _ => rfl) rfl
        (fun _ _ _ hS => hS) fun _ hS => hS
      rw [hi m hm] at hin
      cases hin
  exact exists_run_of_computes id rfl hc h.nodup_interior (h.ordered_interior ho)

/-- The interior program maps the tensors that enter the partition to those that leave it. -/
theorem runInterior_eq_ok {program : Program} {ins outs : List Tensor}
    (hl : lower id p.interior interiorRecipe = .ok program) (hne : p.outputNames ≠ [])
    (hin : List.Forall₂ (fun b t => env b = some (.tensor t)) p.bottoms ins)
    (hout : List.Forall₂ (fun o t => env o = some (.tensor t)) p.outputNames outs) :
    runInterior program p.inputNames p.outputNames (ins.map .tensor) = .ok (.tuple outs) := by
  have hf := h.get?_zip hin
  obtain ⟨program', store, hl', hr, hstore⟩ := h.exists_run_interior ho hx hi hb hf
  obtain rfl : program' = program := Except.ok.inj (hl'.symm.trans hl)
  have hfed : (p.inputNames.zip (ins.map Value.tensor)).mapM
      (fun x => (x.2.asTensor.map fun t => (x.1, t)).mapError
        fun e => Failure.error e.message) = .ok (p.bottoms.zip ins) := by
    rw [h.inputNames_eq, List.zip_map_right, Outcome.mapM_eq_ok, List.forall₂_map_left_iff,
      List.forall₂_same]
    intro x _
    rfl
  have hrun : program'.run (.ofList (p.bottoms.zip ins)) p.outputNames none =
      .ok (outs.map Value.tensor) := by
    rw [run_eq_ok hr hne, List.forall₂_map_right_iff]
    have hmem : ∀ o ∈ p.outputNames, store.lookup o = env o := by
      intro o hout'
      have hin' : o ∈ p.interior.map Node.name := by
        rw [h.map_name_interior, List.mem_append]
        exact Or.inr (h.outputNames_subset hout')
      obtain ⟨n, hn, rfl⟩ := List.mem_map.1 hin'
      obtain ⟨v, hv, hv'⟩ := hstore n hn
      rw [hv, hv']
    exact ((List.forall₂_and_left _ _).2 ⟨hmem, hout⟩).imp fun o t ht => ht.1.trans ht.2
  have htensors : (outs.map Value.tensor).mapM
      (fun v => v.asTensor.mapError fun e => (Failure.error e.message : Failure String)) =
        .ok outs := by
    rw [Outcome.mapM_eq_ok, List.forall₂_map_left_iff, List.forall₂_same]
    intro t _
    rfl
  rw [runInterior, hfed, Outcome.ok_bind, hrun]
  simp only [Except.mapError, Outcome.ok_bind]
  exact Outcome.bind_eq_ok.2 ⟨outs, htensors, rfl⟩

end Summary

end Dataflow.Partition
