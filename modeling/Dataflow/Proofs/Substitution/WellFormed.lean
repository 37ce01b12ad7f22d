import Dataflow.Proofs.Substitution.Wiring

/-!
# Builds of valid graphs

Building a valid graph by its tags gives a graph that is valid and in order, unless the tags are
refused, a collapsed partition has the name of a node, or the rewritten graph has a cycle. No other
error comes up, and since the rewritten graph is valid without being checked, the outcome does not
depend on whether graphs are checked.
-/

namespace Dataflow.Substitution.Context

open Dataflow.Partition

variable {c : Context} {new : List (String × Partition)} {net : List Node}

/-- Relinking leaves each node reading nodes of the rewritten graph. -/
theorem Contraction.closed_net_relinked (h : Contraction c new net)
    (hm : Node.Mirrored c.graph.nodes) :
    ∀ n ∈ net.map (c.relinked (Dict.ofList new).entries), ∀ b ∈ n.bottoms,
      b ∈ (net.map (c.relinked (Dict.ofList new).entries)).map Node.name := by
  intro n hn b hb
  obtain ⟨x, hx, rfl⟩ := List.mem_map.1 hn
  rw [relinked_bottoms] at hb
  rw [map_name_relinked]
  exact h.closed_net hm x hx b hb

/-- The nodes that a contraction comes to are in order and their edges are mirrored, or there is
a cycle. -/
theorem Contraction.sorted_cases (h : Contraction c new net) (hm : Node.Mirrored c.graph.nodes) :
    (∃ sorted, Node.sortTopologically (net.map (c.relinked (Dict.ofList new).entries)) =
        .ok sorted ∧ (sorted.map Node.name).Nodup ∧ Node.Mirrored sorted) ∨
      ∃ n, Node.sortTopologically (net.map (c.relinked (Dict.ofList new).entries)) =
        .error (.cycle n) := by
  have hd : ((net.map (c.relinked (Dict.ofList new).entries)).map Node.name).Nodup := by
    rw [map_name_relinked]
    exact h.nodup_net
  rcases Node.sortTopologically_cases hd (h.closed_net_relinked hm) with ⟨sorted, hs⟩ | ⟨n, hs⟩
  · obtain ⟨hp, -⟩ := Node.sortTopologically_eq_ok hs
    refine Or.inl ⟨sorted, hs, ?_, (h.mirrored_relinked hm).perm hp.symm⟩
    exact (hp.map Node.name).nodup_iff.2 hd
  · exact Or.inr ⟨n, hs⟩

/-- The pass over a graph contracts its tags, unless the name of a partition is taken. -/
theorem substitute_of_tagged (ht : Partition.tagged c.graph = .ok c.partitions) :
    (∃ new s, c.substitute = .ok s ∧ Reached c c.graph.nodes new s ∧ Contraction c new s.net) ∨
      ∃ n ∈ c.graph.nodes, ∃ id, n.subgraph = some id ∧ n.target = c.options.target ∧
        id ∈ c.graph.names ∧ c.substitute = .error (.invalidPartition id (.nameTaken id)) := by
  cases hs : c.substitute with
  | error e =>
      obtain ⟨n, hn, id, hid, hp⟩ := substitute_eq_error hs
      obtain ⟨p, hp', hsum⟩ := exists_get?_of_subgraph ht hn hid
      rcases hp with hp | ⟨q, hq, htarget, he⟩
      · rw [hp'] at hp
        cases hp
      · obtain rfl : q = p := Option.some.inj (hq.symm.trans hp')
        rcases collapse_of_summary hsum with ⟨-, x, hx⟩ | ⟨htaken, hx⟩
        · rw [hx] at he
          cases he
        · rw [hx] at he
          cases he
          refine Or.inr ⟨n, hn, id, hid, ?_, htaken, rfl⟩
          rw [← htarget, hsum.target_eq n (mem_members.2 ⟨hn, hid⟩)]
  | ok s =>
      obtain ⟨new, hnew⟩ := substitute_eq_ok hs
      exact Or.inl ⟨new, s, rfl, hnew, ht, hnew.replaced⟩

/-- Once the pass has contracted the tags of mirrored nodes, relinking is not refused, and sorting
decides. -/
theorem Contraction.rewrite_eq {s : Progress} (h : Contraction c new s.net)
    (hm : Node.Mirrored c.graph.nodes) (hs : c.substitute = .ok s)
    (hreached : Reached c c.graph.nodes new s) (name : String) :
    c.rewrite name = (do
      let sorted ← Node.sortTopologically (s.net.map (c.relinked (Dict.ofList new).entries))
      let g ← Graph.ofNodes name sorted c.compilerOutput
      return (g, c.reportOf new)) := by
  have hrelink := hreached.relink_of_readable h.nodup_net fun e he x hx b => h.readable hm he hx
  unfold rewrite
  rw [hs, Outcome.ok_bind, hrelink, Outcome.ok_bind, hreached.report_eq]

/-- A contraction whose nodes can be sorted makes a valid graph in order. -/
theorem Contraction.exists_rewrite_eq_ok {s : Progress} (h : Contraction c new s.net)
    (hm : Node.Mirrored c.graph.nodes) (hs : c.substitute = .ok s)
    (hreached : Reached c c.graph.nodes new s) {sorted : List Node}
    (hsort : Node.sortTopologically (s.net.map (c.relinked (Dict.ofList new).entries)) = .ok sorted)
    (hd : (sorted.map Node.name).Nodup) (hms : Node.Mirrored sorted) (name : String) :
    ∃ g, c.rewrite name = .ok (g, c.reportOf new) ∧ g.validate = .ok () ∧
      g.isTopologicallyOrdered = true := by
  have ho := (Node.sortTopologically_eq_ok hsort).2
  obtain ⟨g, hg⟩ := Graph.exists_ofNodes_eq_ok name c.compilerOutput hd fun n hn b hb => by
    simpa using Node.mem_of_orderedAfter ho hn hb
  have hns := (Graph.ofNodes_eq_ok hg).2.1
  have hord : g.isTopologicallyOrdered = true := by
    rw [Graph.isTopologicallyOrdered, hns]
    exact ho
  refine ⟨g, ?_, Graph.validate_of_ordered (hns ▸ hms) hord, hord⟩
  rw [h.rewrite_eq hm hs hreached, hsort, Outcome.ok_bind, hg]
  rfl

/-- A rewrite by tags of mirrored nodes gives a valid graph in order, finds the name of a
partition taken, or finds a cycle. -/
theorem rewrite_cases (name : String)
    (ht : Partition.tagged c.graph = .ok c.partitions) (hm : Node.Mirrored c.graph.nodes) :
    (∃ g r, c.rewrite name = .ok (g, r) ∧ g.validate = .ok () ∧
        g.isTopologicallyOrdered = true) ∨
      (∃ n ∈ c.graph.nodes, ∃ id, n.subgraph = some id ∧ n.target = c.options.target ∧
        id ∈ c.graph.names ∧
          c.rewrite name = .error (.invalidPartition id (.nameTaken id))) ∨
        ∃ n, c.rewrite name = .error (.cycle n) := by
  rcases substitute_of_tagged ht with ⟨new, s, hs, hreached, h⟩ |
    ⟨n, hn, id, hid, htarget, htaken, hs⟩
  · rcases h.sorted_cases hm with ⟨sorted, hsort, hd, hms⟩ | ⟨n, hsort⟩
    · obtain ⟨g, hg, hv, hord⟩ := h.exists_rewrite_eq_ok hm hs hreached hsort hd hms name
      exact Or.inl ⟨g, _, hg, hv, hord⟩
    · refine Or.inr (Or.inr ⟨n, ?_⟩)
      rw [h.rewrite_eq hm hs hreached, hsort, Outcome.error_bind]
  · refine Or.inr (Or.inl ⟨n, hn, id, hid, htarget, htaken, ?_⟩)
    rw [rewrite, hs, Outcome.error_bind]

end Dataflow.Substitution.Context

namespace Dataflow.Builder

open Substitution

variable {g : Graph} {o : BuildOptions}

/-- The outcomes that a build of `g` by its tags may have: a graph that is valid and in order, or
one of three refusals. -/
inductive Admissible (g : Graph) (o : BuildOptions) :
    Except BuildError (Graph × BuildReport) → Prop
  | built (h : Graph) (r : BuildReport) (valid : h.validate = .ok ())
      (ordered : h.isTopologicallyOrdered = true) : Admissible g o (.ok (h, r))
  | refused (e : TagError) (tags : Partition.tagged g = .error e) (he : ∀ x, e ≠ .graph x) :
      Admissible g o (.error (.collaborator .partitioner e.message))
  | nameTaken (n : Node) (hn : n ∈ g.nodes) (id : String) (member : n.subgraph = some id)
      (target : n.target = o.target) (taken : id ∈ g.names) :
      Admissible g o (.error (.graph (.invalidPartition id (.nameTaken id))))
  | cycle (n : String) : Admissible g o (.error (.graph (.cycle n)))

theorem build_of_valid (v : Bool) (hg : g.validate = .ok ()) (ho : o.validate = .ok ()) :
    ({ verify := v } : Builder).build g o = (do
      let ps ← (Partitioner.byTag g).mapError (.collaborator .partitioner)
      let x ← ((contextOf g o ps).rewrite g.name).mapError .graph
      ({ verify := v } : Builder).check x.1
      return x) := by
  unfold build
  rw [ho, check_eq_ok.2 fun _ => hg]
  rfl

/-- Builds of valid graphs: the outcome is admissible, and the same with and without checks of
graphs. -/
theorem build_admissible (hg : g.validate = .ok ()) (ho : o.validate = .ok ()) :
    Admissible g o (({ verify := true } : Builder).build g o) ∧
      ({ verify := false } : Builder).build g o = ({ verify := true } : Builder).build g o := by
  suffices h : ∃ x, Admissible g o x ∧ ∀ v, ({ verify := v } : Builder).build g o = x by
    obtain ⟨x, hx, hb⟩ := h
    rw [hb, hb]
    exact ⟨hx, rfl⟩
  have hm : Node.Mirrored g.nodes := (Graph.validate_eq_ok.1 hg).1
  cases ht : Partition.tagged g with
  | error e =>
      refine ⟨_, .refused e ht (Partition.ne_graph_of_tagged ht), fun v => ?_⟩
      rw [build_of_valid v hg ho, Partitioner.byTag, ht]
      rfl
  | ok ps =>
      have hb : ∀ v, ({ verify := v } : Builder).build g o = (do
          let x ← ((contextOf g o ps).rewrite g.name).mapError .graph
          ({ verify := v } : Builder).check x.1
          return x) := by
        intro v
        rw [build_of_valid v hg ho, Partitioner.byTag, ht]
        rfl
      rcases Context.rewrite_cases (c := contextOf g o ps) g.name ht hm with
        ⟨h, r, hr, hv, hord⟩ | ⟨n, hn, id, hs, htarget, htaken, hr⟩ | ⟨n, hr⟩
      · refine ⟨_, .built h r hv hord, fun v => ?_⟩
        have hc : ({ verify := v } : Builder).check h = .ok () := check_eq_ok.2 fun _ => hv
        rw [hb, hr]
        simp only [Except.mapError, Outcome.ok_bind, hc]
        rfl
      · refine ⟨_, .nameTaken n hn id hs htarget htaken, fun v => ?_⟩
        rw [hb, hr]
        rfl
      · refine ⟨_, .cycle n, fun v => ?_⟩
        rw [hb, hr]
        rfl

/-- Four nodes in a row, the middle two of which are to be run on `dpu` together; `tags` are the
further types of the first of them. -/
def chain (tags : List String) : Graph where
  name := "chain"
  nodes := [
    { name := "x", types := ["Input"], shapes := .tensor ⟨[1]⟩, tops := ["r"] },
    { name := "r", types := "Relu" :: tags, shapes := .tensor ⟨[1]⟩, bottoms := ["x"],
      tops := ["s"], subgraph := some "xp0", target := "dpu" },
    { name := "s", types := ["Sigmoid"], shapes := .tensor ⟨[1]⟩, bottoms := ["r"],
      tops := ["out"], subgraph := some "xp0", target := "dpu" },
    { name := "out", types := ["Softmax", "Output"], shapes := .tensor ⟨[1]⟩, bottoms := ["s"] }]
  compilerOutput := none
  nodup := by simp
  closed := by simp

/-- The two middle nodes make room for `xp0` and for the accessor of the second. -/
theorem build_chain_admissible :
    (chain []).validate = .ok () ∧
      ({ target := "dpu", collapsedType := "DPU" } : BuildOptions).validate = .ok () ∧
        ∃ h r, ({ verify := true } : Builder).build (chain [])
            { target := "dpu", collapsedType := "DPU" } = .ok (h, r) ∧
          ({ verify := false } : Builder).build (chain [])
            { target := "dpu", collapsedType := "DPU" } = .ok (h, r) ∧
          h.nodes.map (fun n => (n.name, n.bottoms, n.tops)) =
            [("x", [], ["xp0"]), ("xp0", ["x"], ["s"]), ("s", ["xp0"], ["out"]),
              ("out", ["s"], [])] ∧
          h.validate = .ok () ∧ h.isTopologicallyOrdered = true := by
  have hg : (chain []).validate = .ok () := by decide +kernel
  have ho : ({ target := "dpu", collapsedType := "DPU" } : BuildOptions).validate = .ok () := by
    decide +kernel
  have hbuild : (({ verify := true } : Builder).build (chain [])
      { target := "dpu", collapsedType := "DPU" }).map
        (fun x => x.1.nodes.map fun n => (n.name, n.bottoms, n.tops)) =
      .ok [("x", [], ["xp0"]), ("xp0", ["x"], ["s"]), ("s", ["xp0"], ["out"]),
        ("out", ["s"], [])] := by decide +kernel
  obtain ⟨⟨h, r⟩, hb, hnodes⟩ := Outcome.map_eq_ok.1 hbuild
  obtain ⟨hadmissible, hunchecked⟩ := build_admissible hg ho
  rw [hb] at hadmissible hunchecked
  cases hadmissible with
  | built _ _ hvalid hordered => exact ⟨hg, ho, h, r, hb, hunchecked, hnodes, hvalid, hordered⟩

end Dataflow.Builder
