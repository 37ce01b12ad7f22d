import Dataflow.Proofs.Substitution.Sequence

/-!
# Recorded source operations

A collapsed node records the source operations of the inputs and outputs of its partition, as they
are when the partition is collapsed. The outputs are members that no earlier build has touched, so
they are recorded with the operations they had at first, and the record survives all later builds.
An input that an earlier build took is an accessor by then, which stands for the operation of its
own name only. It is therefore recorded with the operations it had at first exactly if it had that
one.
-/

namespace Dataflow

open Dataflow.Partition

def Graph.Records (g : Graph) (names : List String) (d : Attrs) : Prop :=
  ∀ name ∈ names, ∃ m ∈ g.nodes, m.name = name ∧ d.get? name = some (.strs m.layer)

/-- What a collapsed node says about the inputs and outputs of its partition. -/
structure Node.Snapshot (x : Node) (ins outs : List String) (inLayers outLayers : Attrs) :
    Prop where
  input_names : x.attr? "input_names" = some (.strs ins)
  output_names : x.attr? "output_names" = some (.strs outs)
  input_layers : x.attr? "input_layers" = some (.map inLayers)
  output_layers : x.attr? "output_layers" = some (.map outLayers)

theorem Node.Snapshot.relinked {m x : Node} {ins outs : List String} {inLayers outLayers : Attrs}
    (h : m.Snapshot ins outs inLayers outLayers) (hx : m.Relinked x) :
    x.Snapshot ins outs inLayers outLayers := by
  obtain ⟨_, rfl⟩ := hx
  exact ⟨h.input_names, h.output_names, h.input_layers, h.output_layers⟩

theorem Node.Snapshot.unique {x : Node} {ins ins' outs outs' : List String}
    {inLayers inLayers' outLayers outLayers' : Attrs} (h : x.Snapshot ins outs inLayers outLayers)
    (h' : x.Snapshot ins' outs' inLayers' outLayers') :
    ins = ins' ∧ outs = outs' ∧ inLayers = inLayers' ∧ outLayers = outLayers' := by
  have hins := h.input_names.symm.trans h'.input_names
  have houts := h.output_names.symm.trans h'.output_names
  have hin := h.input_layers.symm.trans h'.input_layers
  have hout := h.output_layers.symm.trans h'.output_layers
  rw [Option.some.injEq, Attr.strs.injEq] at hins houts
  rw [Option.some.injEq, Attr.map.injEq] at hin hout
  exact ⟨hins, houts, hin, hout⟩

/-- The node names its inputs and outputs, and sends each of them to the source operations that the
node of this name has in the graph. -/
def Node.RecordsLayersOf (g : Graph) (x : Node) : Prop :=
  ∃ ins outs inLayers outLayers, x.Snapshot ins outs inLayers outLayers ∧
    g.Records ins inLayers ∧ g.Records outs outLayers

/-- The nodes of an interior have the source operations of the nodes they are made of. -/
theorem Partition.Summary.exists_layer_eq {g : Graph} {id : String} {p : Partition}
    (h : Summary g id p) {interior : Graph} (hi : p.subgraph = .ok interior) {x : Node}
    (hx : x ∈ interior.nodes) : ∃ m ∈ g.nodes, m.name = x.name ∧ x.layer = m.layer := by
  obtain ⟨producers, hp, hint⟩ := h.interior_eq
  rw [(Graph.ofNodes_eq_ok hi).2.1, hint, List.mem_append] at hx
  rcases hx with hx | hx
  · obtain ⟨m, hm, rfl⟩ := List.mem_map.1 hx
    obtain ⟨b, -, hnode⟩ := Outcome.exists_left_of_mem hp hm
    exact ⟨m, (Graph.node_eq_ok.1 hnode).1, rfl, rfl⟩
  · obtain ⟨m, hm, rfl⟩ := List.mem_map.1 hx
    exact ⟨m, (mem_members.1 hm).1, rfl, rfl⟩

namespace Substitution.Context

variable {c : Context} {new : List (String × Partition)} {net : List Node}

theorem records_of_layers {g : Graph} {names : List String} {a : Attr}
    (h : layers g names = .ok a) (hd : names.Nodup) : ∃ d, a = .map d ∧ g.Records names d := by
  obtain ⟨entries, hentries, h⟩ := Outcome.bind_eq_ok.1 h
  cases h
  rw [Outcome.mapM_eq_ok] at hentries
  have hentry : ∀ {n : String} {e : String × Attr},
      ((g.node n).map fun x => (n, Attr.strs x.layer)) = .ok e →
        ∃ m ∈ g.nodes, m.name = n ∧ e = (n, .strs m.layer) := by
    intro n e he
    obtain ⟨m, hm, rfl⟩ := Outcome.map_eq_ok.1 he
    obtain ⟨hmem, hname⟩ := Graph.node_eq_ok.1 hm
    exact ⟨m, hmem, hname, rfl⟩
  have hkeys : entries.map Prod.fst = names := by
    clear h hd
    induction hentries with
    | nil => rfl
    | cons he _ ih =>
        obtain ⟨m, -, -, rfl⟩ := hentry he
        rw [List.map_cons, ih]
  refine ⟨.ofList entries, rfl, fun n hn => ?_⟩
  obtain ⟨e, he, hok⟩ := Outcome.exists_right_of_mem hentries hn
  obtain ⟨m, hm, hname, rfl⟩ := hentry hok
  exact ⟨m, hm, hname, (Dict.get?_ofList (hkeys ▸ hd)).2 he⟩

variable (hcon : Contraction c new net)

include hcon

theorem Contraction.exists_snapshot (ho : c.options.validate = .ok ()) {e : String × Partition}
    (he : e ∈ new) {x : Node} (hx : c.collapse e.2 = .ok x) :
    ∃ outs inLayers outLayers, x.Snapshot x.bottoms outs inLayers outLayers ∧
      (∀ b ∈ outs, b ∈ Partition.memberNames c.graph e.1) ∧
        c.graph.Records x.bottoms inLayers ∧ c.graph.Records outs outLayers := by
  obtain ⟨-, -, interior, attrs, hi, hattrs, rfl⟩ := collapse_eq_ok hx
  obtain ⟨_, _, ha, hb, hin, hout, hinLayers, houtLayers⟩ := collapsedAttrs_eq_ok ho hattrs
  have hsum := hcon.summary he
  have hrecords : ∀ {names d}, interior.Records names d → c.graph.Records names d := by
    intro names d hd name hname
    obtain ⟨x, hx, hxname, hget⟩ := hd name hname
    obtain ⟨m, hm, hmname, hlayer⟩ := hsum.exists_layer_eq hi hx
    exact ⟨m, hm, hmname.trans hxname, hlayer ▸ hget⟩
  have hnodup : e.2.inputNames.Nodup := hsum.inputNames_eq ▸ hsum.nodup_bottoms
  obtain ⟨inLayers, rfl, hins⟩ := records_of_layers ha hnodup
  obtain ⟨outLayers, rfl, houts⟩ := records_of_layers hb hsum.nodup_outputNames
  rw [hsum.inputNames_eq] at hin hins
  exact ⟨e.2.outputNames, inLayers, outLayers, ⟨hin, hout, hinLayers, houtLayers⟩,
    fun b hb => hsum.outputNames_subset hb, hrecords hins, hrecords houts⟩

end Substitution.Context

namespace Builder

open Substitution

variable {g g₁ g₂ h : Graph} {before after : List BuildOptions} {o : BuildOptions}
  {r : BuildReport} {v : Bool} {id : String} {n x : Node}

/-- A build makes a collapsed node for each partition of its device, which records the source
operations that the graph has. -/
theorem exists_snapshot_of_build (hb : ({ verify := v } : Builder).build g o = .ok (h, r))
    (hn : n ∈ members g id) (ht : n.target = o.target) :
    ∃ x ∈ h.nodes, Collapses g o id x ∧ ∃ outs inLayers outLayers,
      x.Snapshot x.bottoms outs inLayers outLayers ∧ (∀ b ∈ outs, b ∈ memberNames g id) ∧
        g.Records x.bottoms inLayers ∧ g.Records outs outLayers := by
  obtain ⟨ho, -⟩ := build_eq_ok.1 hb
  obtain ⟨ps, new, net, hcon, hperm, -⟩ := exists_contraction hb
  obtain ⟨e, he, rfl⟩ := hcon.exists_mem_new hn ht
  obtain ⟨-, -, x, hx⟩ := hcon.replaced.reported e he
  obtain ⟨y, hy, hk⟩ :=
    Context.Contraction.exists_of_mem_net hperm (hcon.mem_net.2 (.collapsed e he hx))
  obtain ⟨outs, inLayers, outLayers, hsnapshot, hrest⟩ := hcon.exists_snapshot ho he hx
  refine ⟨y, hy, (hcon.collapses he hx).relinked hk, outs, inLayers, outLayers, ?_⟩
  rw [hk.bottoms_eq]
  exact ⟨hsnapshot.relinked hk, hrest⟩

theorem Rewritten.records_of_members (R : Rewritten g before g₁) {names : List String} {d : Attrs}
    (hnames : ∀ b ∈ names, b ∈ memberNames g₁ id) (hd : g₁.Records names d) :
    g.Records names d := by
  intro b hb
  obtain ⟨x, hx, rfl⟩ := List.mem_map.1 (hnames b hb)
  obtain ⟨m, hm, -, _, rfl⟩ := R.exists_of_mem_members hx
  obtain ⟨y, hy, hname, hget⟩ := hd _ hb
  rw [Node.eq_of_name_eq g₁.nodup hy (mem_members.1 hx).1 hname] at hget
  exact ⟨m, (mem_members.1 hm).1, rfl, hget⟩

/-- An input has the source operations it had, or is an accessor and has its own name only. -/
theorem Rewritten.layer_of_bottom (R : Rewritten g before g₁) (hx : Collapses g₁ o id x)
    {d : Attrs} (hd : g₁.Records x.bottoms d) {m : Node} (hm : m ∈ g.nodes)
    (hb : m.name ∈ x.bottoms) :
    (m.AssignedTo (targets before) → d.get? m.name = some (.strs [m.name])) ∧
      (¬m.AssignedTo (targets before) → d.get? m.name = some (.strs m.layer)) := by
  obtain ⟨reader, hreader, hread, -⟩ := (hx.bottoms m.name).1 hb
  obtain ⟨hmem, hs⟩ := mem_members.1 hreader
  obtain ⟨m', hm', y, hy, hname, hr⟩ := R.read reader hmem (by rw [hs]; rfl) m.name hread
  obtain rfl := Node.eq_of_name_eq g.nodup hm hm' (hname.symm.trans hr.name_eq)
  obtain ⟨z, hz, hzname, hget⟩ := hd m.name hb
  rw [Node.eq_of_name_eq g₁.nodup hz hy (hzname.trans hname.symm)] at hget
  constructor
  · intro ha
    obtain ⟨_, -, hacc⟩ := hr.accesses_of_assigned ha
    rw [hget, hacc.layer]
  · intro hu
    obtain ⟨_, rfl⟩ := hr.relinked_of_notAssigned hu
    exact hget

theorem Rewritten.exists_of_bottom (R : Rewritten g before g₁) (hx : Collapses g₁ o id x)
    {b : String} (hb : b ∈ x.bottoms) : ∃ m ∈ g.nodes, m.name = b := by
  obtain ⟨reader, hreader, hread, -⟩ := (hx.bottoms b).1 hb
  obtain ⟨hmem, hs⟩ := mem_members.1 hreader
  obtain ⟨m, hm, y, -, hname, hr⟩ := R.read reader hmem (by rw [hs]; rfl) b hread
  exact ⟨m, hm, hr.name_eq.symm.trans hname⟩

/-- After builds for different devices there is a collapsed node for each partition of them. It
records the outputs of the partition, and its inputs from no earlier partition, with the source
operations that they have in the graph, and the other inputs with their own names. -/
theorem exists_snapshot_of_buildAll (hg : g.validate = .ok ())
    (hd : (targets (before ++ o :: after)).Nodup)
    (hb : ({ verify := v } : Builder).buildAll g (before ++ o :: after) = .ok h)
    (hn : n ∈ members g id) (ht : n.target = o.target) :
    ∃ x ∈ h.nodes, Collapses g o id x ∧ ∃ outs inLayers outLayers,
      x.Snapshot x.bottoms outs inLayers outLayers ∧ g.Records outs outLayers ∧
        ∀ b ∈ x.bottoms, ∃ m ∈ g.nodes, m.name = b ∧
          (m.AssignedTo (targets before) → inLayers.get? b = some (.strs [b])) ∧
            (¬m.AssignedTo (targets before) → inLayers.get? b = some (.strs m.layer)) := by
  obtain ⟨g₁, hbefore, hrest⟩ := buildAll_append_eq_ok.1 hb
  obtain ⟨g₂, r, hbuild, hafter⟩ := buildAll_cons_eq_ok.1 hrest
  rw [targets_append, List.nodup_append] at hd
  obtain ⟨hd₁, hd₂, hdisjoint⟩ := hd
  rw [targets, List.map_cons, List.nodup_cons] at hd₂
  have R := rewritten_of_buildAll hg hd₁ hbefore
  have R₂ := rewritten_of_buildAll (rewritten_of_build R.valid hbuild).valid hd₂.2 hafter
  have hu : ¬n.AssignedTo (targets before) := fun ha =>
    hdisjoint _ ha.2 _ List.mem_cons_self ht
  obtain ⟨_, hn₁, _, rfl⟩ := R.exists_mem_members hn hu
  obtain ⟨x, hx, hc, outs, inLayers, outLayers, hsnapshot, houts, hin, hout⟩ :=
    exists_snapshot_of_build hbuild hn₁ ht
  obtain ⟨y, hy, hk⟩ := R₂.exists_kept hx (Node.notAssignedTo_of_subgraph hc.subgraph)
  refine ⟨y, hy, ((R.collapses_iff hn hu).1 hc).relinked hk, outs, inLayers, outLayers, ?_⟩
  rw [hk.bottoms_eq]
  refine ⟨hsnapshot.relinked hk, R.records_of_members houts hout, fun b hbottom => ?_⟩
  obtain ⟨m, hm, rfl⟩ := R.exists_of_bottom hc hbottom
  exact ⟨m, hm, rfl, R.layer_of_bottom hc hin hm hbottom⟩

/-- After builds for different devices there is a collapsed node for each partition of them. It
records the outputs of the partition with the source operations that they have in the graph, and so
it does with the inputs exactly if each of them that an earlier build took stands for the operation
of its own name, which is recorded for it in any case. -/
theorem recordsLayersOf_iff (hg : g.validate = .ok ())
    (hd : (targets (before ++ o :: after)).Nodup)
    (hb : ({ verify := v } : Builder).buildAll g (before ++ o :: after) = .ok h)
    (hn : n ∈ members g id) (ht : n.target = o.target) :
    ∃ x ∈ h.nodes, Collapses g o id x ∧
      (∃ outs inLayers outLayers, x.Snapshot x.bottoms outs inLayers outLayers ∧
        g.Records outs outLayers ∧ ∀ b ∈ x.bottoms, ∃ m ∈ g.nodes, m.name = b ∧
          (m.AssignedTo (targets before) → inLayers.get? b = some (.strs [b])) ∧
            (¬m.AssignedTo (targets before) → inLayers.get? b = some (.strs m.layer))) ∧
        (x.RecordsLayersOf g ↔ ∀ m ∈ g.nodes, m.name ∈ x.bottoms →
          m.AssignedTo (targets before) → m.layer = [m.name]) := by
  obtain ⟨x, hx, hc, outs, inLayers, outLayers, hsnapshot, houts, hins⟩ :=
    exists_snapshot_of_buildAll hg hd hb hn ht
  refine ⟨x, hx, hc, ⟨outs, inLayers, outLayers, hsnapshot, houts, hins⟩, ?_⟩
  constructor
  · rintro ⟨ins', outs', inLayers', outLayers', hsnapshot', hins', -⟩ m hm hbottom ha
    obtain ⟨rfl, -, rfl, -⟩ := hsnapshot.unique hsnapshot'
    obtain ⟨m₁, hm₁, hname₁, htaken, -⟩ := hins m.name hbottom
    obtain ⟨m₂, hm₂, hname₂, hget⟩ := hins' m.name hbottom
    obtain rfl := Node.eq_of_name_eq g.nodup hm₁ hm hname₁
    obtain rfl := Node.eq_of_name_eq g.nodup hm₂ hm hname₂
    rw [htaken ha, Option.some.injEq, Attr.strs.injEq] at hget
    exact hget.symm
  · intro hown
    refine ⟨x.bottoms, outs, inLayers, outLayers, hsnapshot, fun b hbottom => ?_, houts⟩
    obtain ⟨m, hm, rfl, htaken, hkept⟩ := hins b hbottom
    by_cases ha : m.AssignedTo (targets before)
    · exact ⟨m, hm, rfl, (hown m hm hbottom ha).symm ▸ htaken ha⟩
    · exact ⟨m, hm, rfl, hkept ha⟩

/-- What is recorded for the input of the second partition of `relay`, once the first one has been
collapsed. -/
theorem recordsLayersOf_relay_iff : ∃ h,
    relay.validate = .ok () ∧ (targets ([forDpu] ++ forNpu :: [])).Nodup ∧
      ({} : Builder).buildAll relay ([forDpu] ++ forNpu :: []) = .ok h ∧
        ∃ n ∈ members relay "xp1", n.target = forNpu.target ∧
          ∃ x ∈ h.nodes, Collapses relay forNpu "xp1" x ∧
            (x.RecordsLayersOf relay ↔ ∀ m ∈ relay.nodes, m.name ∈ x.bottoms →
              m.AssignedTo (targets [forDpu]) → m.layer = [m.name]) := by
  have hg : relay.validate = .ok () := by decide +kernel
  have hd : (targets ([forDpu] ++ forNpu :: [])).Nodup := by decide +kernel
  obtain ⟨h, hb⟩ := Outcome.exists_of_isOk
    (x := ({} : Builder).buildAll relay ([forDpu] ++ forNpu :: [])) (by decide +kernel)
  have hn : relay.nodes[2] ∈ members relay "xp1" := mem_members.2 ⟨List.getElem_mem _, rfl⟩
  obtain ⟨x, hx, hc, -, hiff⟩ := recordsLayersOf_iff hg hd hb hn rfl
  exact ⟨h, hg, hd, hb, _, hn, rfl, x, hx, hc, hiff⟩

/-- An input that was made of two source operations, and was collapsed by an earlier build, is
recorded as one operation of its own name. -/
theorem sourceOperations_lost : ∃ h x,
    relay.validate = .ok () ∧ (targets [forDpu, forNpu]).Nodup ∧
      ({} : Builder).buildAll relay [forDpu, forNpu] = .ok h ∧ h.get? "xp1" = some x ∧
        x.bottoms = ["r"] ∧ (relay.get? "r").map Node.layer = some ["conv1", "relu1"] ∧
          ((x.attr? "input_layers").bind Attr.asMap?).bind
              (fun d => (d.get? "r").bind Attr.asStrs?) = some ["r"] ∧
            ¬x.RecordsLayersOf relay := by
  have hbuild : (({} : Builder).buildAll relay [forDpu, forNpu]).map (fun h =>
      (h.get? "xp1").map fun x => (x.bottoms, (x.attr? "input_names").bind Attr.asStrs?,
        ((x.attr? "input_layers").bind Attr.asMap?).bind
          fun d => (d.get? "r").bind Attr.asStrs?)) =
      .ok (some (["r"], some ["r"], some ["r"])) := by decide +kernel
  obtain ⟨h, hb, hx⟩ := Outcome.map_eq_ok.1 hbuild
  obtain ⟨x, hx, hattrs⟩ := Option.map_eq_some_iff.1 hx
  rw [Prod.mk.injEq, Prod.mk.injEq] at hattrs
  obtain ⟨hbottoms, hins, hlayers⟩ := hattrs
  refine ⟨h, x, by decide +kernel, by decide +kernel, hb, hx, hbottoms, by decide +kernel, hlayers,
    ?_⟩
  rintro ⟨ins, outs, inLayers, outLayers, hsnapshot, hrecords, -⟩
  rw [hsnapshot.input_names, Option.bind_some, Attr.asStrs?, Option.some.injEq] at hins
  obtain ⟨m, hm, hname, hget⟩ := hrecords "r" (hins ▸ List.mem_singleton_self "r")
  rw [hsnapshot.input_layers, Option.bind_some, Attr.asMap?, Option.bind_some, hget,
    Option.bind_some, Attr.asStrs?, Option.some.injEq] at hlayers
  have hlayer : ∀ m ∈ relay.nodes, m.name = "r" → m.layer ≠ ["r"] := by decide +kernel
  exact hlayer m hm hname hlayers

end Builder

end Dataflow
