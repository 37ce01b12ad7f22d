import Dataflow.Proofs.Substitution.WellFormed

/-!
# Outputs of a rewritten graph

Which nodes of a rewritten graph carry the output tag. Accessors take the tag over from the members
they stand for, but a member gets an accessor only where its value leaves the partition: an output
that is read within its partition and nowhere else is dropped along with its tag. `Enclosed`
describes these nodes; the outputs of the rewritten graph are those of the graph without them.
-/

namespace Dataflow

open Substitution Dataflow.Partition

theorem Graph.mem_outputNames {g : Graph} {name : String} :
    name ∈ g.outputNames ↔ ∃ n ∈ g.nodes, n.isOutput = true ∧ n.name = name := by
  simp [outputNames, and_assoc]

/-- The node is a member of a partition of the device, and is read within it and nowhere else. -/
def Partition.Enclosed (g : Graph) (target : String) (n : Node) : Prop :=
  n.target = target ∧ n.tops ≠ [] ∧
    ∃ id, n.subgraph = some id ∧ ∀ t ∈ n.tops, t ∈ memberNames g id

namespace Substitution.Context

variable {c : Context} {new es : List (String × Partition)} {net : List Node}

theorem isOutput_relinked (n : Node) : (c.relinked es n).isOutput = n.isOutput := by
  rw [Node.isOutput, Node.hasType, relinked_types]
  rfl

theorem isOutput_collapsed {p : Partition} {x : Node} (hx : c.collapse p = .ok x)
    (hct : c.options.collapsedType ≠ Node.outputTag) : x.isOutput = false := by
  obtain ⟨-, -, -, attrs, -, -, rfl⟩ := collapse_eq_ok hx
  have hne : Node.outputTag ≠ c.options.collapsedType := fun h => hct h.symm
  simpa [Node.isOutput, Node.hasType, collapsedNode] using hne

theorem isOutput_accessor {p : Partition} {x : Node} (hx : x ∈ c.accessors p) :
    x.isOutput = true ↔ x.name ∈ c.graph.outputNames := by
  obtain ⟨i, o, s, -, -, rfl⟩ := mem_accessors.1 hx
  have hne : Node.outputTag ≠ Node.accessorType := by decide
  by_cases ho : o ∈ c.graph.outputNames
  · simp [Node.isOutput, Node.hasType, accessor, ho]
  · simp [Node.isOutput, Node.hasType, accessor, ho, hne]

theorem mem_outputs_iff {e : String × Partition} {n : Node}
    (ht : Partition.tagged c.graph = .ok c.partitions) (hn : n ∈ c.graph.nodes)
    (hc : c.claims n = true) (hs : n.subgraph = some e.1) :
    n ∈ outputs c.graph e.1 ↔ ¬Enclosed c.graph c.options.target n := by
  have htarget := ((claims_iff_of_tagged ht hn).1 hc).2
  rw [mem_outputs, and_iff_right (mem_members.2 ⟨hn, hs⟩)]
  constructor
  · rintro (h | ⟨t, ht, hout⟩) ⟨-, hne, id, hid, hall⟩
    · exact hne h
    · obtain rfl : e.1 = id := Option.some.inj (hs.symm.trans hid)
      exact hout (hall t ht)
  · intro h
    by_cases htops : n.tops = []
    · exact Or.inl htops
    · by_contra hno
      refine h ⟨htarget, htops, e.1, hs, fun t ht => ?_⟩
      by_contra hout
      exact hno (Or.inr ⟨t, ht, hout⟩)

/-- The outputs of the graph that are not enclosed are the outputs of the rewritten graph. -/
theorem Contraction.exists_isOutput_iff (h : Contraction c new net)
    (hct : c.options.collapsedType ≠ Node.outputTag) {name : String} :
    (∃ x ∈ net, x.isOutput = true ∧ x.name = name) ↔
      ∃ n ∈ c.graph.nodes, n.isOutput = true ∧ n.name = name ∧
        ¬Enclosed c.graph c.options.target n := by
  constructor
  · rintro ⟨x, hx, ho, rfl⟩
    cases h.mem_net.1 hx with
    | kept hx' hc =>
        refine ⟨x, hx', ho, rfl, ?_⟩
        rintro ⟨htarget, -, id, hs, -⟩
        rw [(claims_iff_of_tagged h.tagged hx').2 ⟨by rw [hs]; rfl, htarget⟩] at hc
        cases hc
    | collapsed e he hx' =>
        rw [isOutput_collapsed hx' hct] at ho
        cases ho
    | accessor e he hx' =>
        obtain ⟨m, hm, hn, -, -⟩ := h.accessor_spec he hx'
        obtain ⟨hmem, hs⟩ := mem_members.1 (mem_outputs.1 hm).1
        obtain ⟨m', hm', ho', hn'⟩ := Graph.mem_outputNames.1 ((isOutput_accessor hx').1 ho)
        obtain rfl : m' = m := Node.eq_of_name_eq c.graph.nodup hm' hmem (hn'.trans hn)
        have hc := h.replaced.claims_of_subgraph he hs
        exact ⟨m', hm', ho', hn.symm, (mem_outputs_iff h.tagged hm' hc hs).1 hm⟩
  · rintro ⟨n, hn, ho, rfl, henc⟩
    by_cases hc : c.claims n = true
    · obtain ⟨e, he, hs⟩ := h.replaced.complete _ hn hc
      obtain ⟨x, hx, hname, -, -⟩ :=
        h.exists_accessor he ((mem_outputs_iff h.tagged hn hc hs).2 henc)
      refine ⟨x, h.mem_net.2 (.accessor e he hx), (isOutput_accessor hx).2 ?_, hname⟩
      exact Graph.mem_outputNames.2 ⟨n, hn, ho, hname.symm⟩
    · rw [Bool.not_eq_true] at hc
      exact ⟨n, h.mem_net.2 (.kept hn hc), ho, rfl⟩

end Substitution.Context

namespace Builder

variable {g h : Graph} {o : BuildOptions} {r : BuildReport} {v : Bool}

theorem mem_outputNames_build (hb : ({ verify := v } : Builder).build g o = .ok (h, r))
    (hct : o.collapsedType ≠ Node.outputTag) {name : String} :
    name ∈ h.outputNames ↔ ∃ n ∈ g.nodes, n.isOutput = true ∧ n.name = name ∧
      ¬Enclosed g o.target n := by
  obtain ⟨ps, new, net, hcon, hperm, -⟩ := exists_contraction hb
  refine Iff.trans ?_ (hcon.exists_isOutput_iff hct)
  rw [Graph.mem_outputNames]
  constructor
  · rintro ⟨x, hx, ho, rfl⟩
    obtain ⟨y, hy, rfl⟩ := List.mem_map.1 (hperm.mem_iff.1 hx)
    rw [Context.isOutput_relinked] at ho
    exact ⟨y, hy, ho, (Context.relinked_name _ y).symm⟩
  · rintro ⟨y, hy, ho, rfl⟩
    refine ⟨_, hperm.mem_iff.2 (List.mem_map_of_mem hy), ?_, Context.relinked_name _ y⟩
    rw [Context.isOutput_relinked, ho]

/-- A build keeps the outputs of a graph exactly if none of them is enclosed. -/
theorem outputNames_build_iff (hb : ({ verify := v } : Builder).build g o = .ok (h, r))
    (hct : o.collapsedType ≠ Node.outputTag) :
    (∀ name, name ∈ h.outputNames ↔ name ∈ g.outputNames) ↔
      ∀ n ∈ g.nodes, n.isOutput = true → ¬Enclosed g o.target n := by
  constructor
  · intro hall n hn ho henc
    have hname := (hall n.name).2 (Graph.mem_outputNames.2 ⟨n, hn, ho, rfl⟩)
    obtain ⟨m, hm, -, he, hnot⟩ := (mem_outputNames_build hb hct).1 hname
    rw [Node.eq_of_name_eq g.nodup hm hn he] at hnot
    exact hnot henc
  · intro hall name
    rw [mem_outputNames_build hb hct, Graph.mem_outputNames]
    constructor
    · rintro ⟨n, hn, ho, he, -⟩
      exact ⟨n, hn, ho, he⟩
    · rintro ⟨n, hn, ho, he⟩
      exact ⟨n, hn, ho, he, hall n hn ho⟩

theorem outputNames_build_chain_iff : ∃ h r,
    ({} : Builder).build (chain []) { target := "dpu", collapsedType := "DPU" } = .ok (h, r) ∧
      "DPU" ≠ Node.outputTag ∧
        ((∀ name, name ∈ h.outputNames ↔ name ∈ (chain []).outputNames) ↔
          ∀ n ∈ (chain []).nodes, n.isOutput = true → ¬Enclosed (chain []) "dpu" n) := by
  obtain ⟨⟨h, r⟩, hb⟩ := Outcome.exists_of_isOk
    (x := ({} : Builder).build (chain []) { target := "dpu", collapsedType := "DPU" })
    (by decide +kernel)
  exact ⟨h, r, hb, by decide, outputNames_build_iff hb (by decide)⟩

/-- An output that is read by the next member of its partition only is lost. -/
theorem enclosed_output_lost :
    (chain [Node.outputTag]).validate = .ok () ∧
      (chain [Node.outputTag]).outputNames = ["r", "out"] ∧
        (({} : Builder).build (chain [Node.outputTag])
          { target := "dpu", collapsedType := "DPU" }).map (fun x => x.1.outputNames) =
            .ok ["out"] := by
  decide +kernel

end Builder

end Dataflow
