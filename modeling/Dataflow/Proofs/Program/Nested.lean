import Dataflow.Proofs.Partition.Interior

/-!
# Tables that run interiors

A table with a handler for collapsed nodes treats all other nodes as the reference backend does. A
collapsed node is lowered to one operation, which runs the program of its partition. `Covers` says
that the programs at hand are those of the interiors.
-/

namespace Dataflow.Program

variable {programs : Dict Program} {ps : Dict Partition} {n : Node} {program : Program}

/-- The programs hold the lowered interiors of the partitions of a device, by tag. -/
def Covers (programs : Dict Program) (ps : Dict Partition) (target : String) : Prop :=
  ∀ id p, ps.get? id = some p → p.target = target → ∃ program,
    programs.get? id = some program ∧
      lower id p.interior Partition.interiorRecipe = .ok program

/-- The programs of all partitions will do. -/
theorem covers_of_interiors (h : interiors ps = .ok programs) (target : String) :
    Covers programs ps target := by
  obtain ⟨es, hes, he⟩ := Outcome.bind_eq_ok.1 h
  cases he
  rw [Outcome.mapM_eq_ok] at hes
  intro id p hp _
  refine Dict.exists_lookup_of_forall₂
    (R := fun e program => lower e.1 e.2.interior Partition.interiorRecipe = .ok program)
    (hes.imp fun e x hx => ?_) hp
  obtain ⟨program, hl, rfl⟩ := Outcome.map_eq_ok.1 hx
  exact ⟨rfl, hl⟩

/-! ## Lowering -/

theorem nestedTable_get?_self {t : String} :
    (nestedTable programs t).get? t = some (collapsedLowering programs) :=
  Dict.get?_insert_self _ _ _

theorem nestedTable_get?_of_ne {t t' : String} (h : t' ≠ t) :
    (nestedTable programs t).get? t' = Cpu.table.get? t' :=
  Dict.get?_insert_of_ne _ h _

/-- Nodes that are not collapsed are lowered as by the reference backend. -/
theorem lower_nestedTable {t name device : String} {batch : Int} {nodes : List Node}
    (h : ∀ n ∈ nodes, n.opType ≠ t) :
    lower name nodes ⟨device, nestedTable programs t, .empty, batch⟩ =
      lower name nodes ⟨device, Cpu.table, .empty, batch⟩ := by
  have hnodes : lowerNodes ⟨device, nestedTable programs t, .empty, batch⟩ [] nodes =
      lowerNodes ⟨device, Cpu.table, .empty, batch⟩ [] nodes := by
    refine lowerNodes_congr (fun n hn => ?_) rfl rfl rfl
    exact nestedTable_get?_of_ne (h n hn)
  rw [lower, hnodes]
  rfl

theorem namesAttr_eq {key : String} {names : List String}
    (h : n.attr? key = some (.strs names)) : namesAttr n key = names := by
  rw [namesAttr, h]
  rfl

def collapsedOperation (n : Node) (program : Program) (inputNames outputNames : List String) :
    Operation where
  name := n.name
  opType := n.opType
  inputs := inputNames
  shape := n.shapes
  forward := runInterior program inputNames outputNames

theorem collapsedLowering_eq_ok {known : String → Option Shapes} {params : Dict Tensor}
    {batch : Int} {inputNames outputNames : List String}
    (hp : programs.get? n.name = some program)
    (hi : n.attr? "input_names" = some (.strs inputNames))
    (ho : n.attr? "output_names" = some (.strs outputNames)) :
    collapsedLowering programs n known params batch =
      .ok [collapsedOperation n program inputNames outputNames] := by
  rw [collapsedLowering, hp]
  dsimp only
  rw [namesAttr_eq hi, namesAttr_eq ho]
  rfl

end Dataflow.Program
