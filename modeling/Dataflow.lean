import Dataflow.Device
import Dataflow.Graph.Draft
import Dataflow.Proofs.Cpu.Evaluation
import Dataflow.Proofs.Cpu.Executability
import Dataflow.Proofs.Dict
import Dataflow.Proofs.Graph.Cycles
import Dataflow.Proofs.Program.Feeding
import Dataflow.Proofs.Program.Sources
import Dataflow.Proofs.Program.Steps
import Dataflow.Proofs.Storage.Binary
import Dataflow.Proofs.Storage.Text
import Dataflow.Proofs.Substitution.Commutation
import Dataflow.Proofs.Substitution.Layers
import Dataflow.Proofs.Substitution.Meaning
import Dataflow.Settings
import Dataflow.Storage.Binary
import Dataflow.Tensor.Random
import Dataflow.Proofs.Graph.Linearization
import Dataflow.Proofs.Registry
import Dataflow.Proofs.Substitution.Conservation
import Dataflow.Proofs.Cpu.WellFormed
import Dataflow.Proofs.Graph.CycleSearch
import Dataflow.Proofs.Cpu.Faults
import Dataflow.Proofs.Graph.Drafts
import Dataflow.Proofs.Substitution.References
import Dataflow.Proofs.Graph.Checks
import Dataflow.Proofs.Tensor.Elementwise
import Dataflow.Proofs.Tensor.Bias
