import Dataflow.Substitution.Collapse

/-!
# Builds

A whole build: the options are checked, then the graph; the layout pass and the partitioner do
their part; the partitions of the target are replaced, and the result is checked. Both checks of
graphs can be switched off. The rewritten graph keeps the name and the artifacts of the graph that
was given.
-/

namespace Dataflow

/-- The functions a build relies on, and whether it checks graphs. -/
structure Builder where
  layoutPass : LayoutPass := .identity
  partitioner : Partitioner := .byTag
  verify : Bool := true

namespace Builder

def check (b : Builder) (g : Graph) : Except BuildError Unit :=
  if b.verify then g.validate.mapError .graph else .ok ()

def build (b : Builder) (g : Graph) (o : BuildOptions) :
    Except BuildError (Graph × BuildReport) := do
  o.validate.mapError .config
  b.check g
  let laidOut ← (b.layoutPass g o.target o.layout).mapError (.collaborator .layoutPass)
  let partitions ← (b.partitioner laidOut).mapError (.collaborator .partitioner)
  let context : Substitution.Context := ⟨o, g.compilerOutput, laidOut, partitions⟩
  let (rewritten, report) ← (context.rewrite g.name).mapError .graph
  b.check rewritten
  return (rewritten, report)

/-- Builds `g` with a layout given by name, which is looked at first. -/
def buildNamed (b : Builder) (g : Graph) (target collapsedType layout : String)
    (extraAttrs : Attrs) : Except BuildError Graph := do
  let layout ← (Layout.parse layout).mapError .config
  let (rewritten, _) ← b.build g { target, collapsedType, layout, extraAttrs }
  return rewritten

end Builder

end Dataflow
