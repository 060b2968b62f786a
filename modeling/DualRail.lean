import DualRail.Compiler.Batch
import DualRail.Compiler.Counters
import DualRail.Main
import DualRail.Workbench.Blueprint
import DualRail.Workbench.Registers
import DualRail.Proofs.ExactMatrix
import DualRail.Proofs.PermutationAction
import DualRail.Proofs.Checked
import DualRail.Proofs.Defects
import DualRail.Proofs.GateText
import DualRail.Proofs.NetworkMatrix
import DualRail.Proofs.FragmentBlock
import DualRail.Proofs.RoutedModes
import DualRail.Proofs.Construction
import DualRail.Proofs.BuiltRegistry
import DualRail.Proofs.Layout
import DualRail.Proofs.Compilation
import DualRail.Proofs.Meaning
import DualRail.Proofs.RealQuantity
import DualRail.Proofs.StandardCatalog
import DualRail.Proofs.StandardGates
import DualRail.Proofs.ControlledGates
import DualRail.Proofs.StandardCompilation
import DualRail.Proofs.Preservation
import DualRail.Proofs.Outcome
import DualRail.Proofs.Bookkeeping
import DualRail.Proofs.Acceptance
import DualRail.Proofs.PhotonState
import DualRail.Proofs.RailAction
import DualRail.Proofs.RailNetwork
import DualRail.Proofs.CircuitNorm
import DualRail.Proofs.Postselection
import DualRail.Proofs.NetworkRange
import DualRail.Proofs.ProgramDocument
import DualRail.Proofs.HeraldedState
import DualRail.Proofs.HeraldedCore
import DualRail.Proofs.HeraldedGate
import DualRail.Proofs.HeraldedNetwork
import DualRail.Proofs.HeraldedCompilation
import DualRail.Proofs.PhotonAmplitude
import DualRail.Proofs.Heralding
import DualRail.Proofs.Incremental
import DualRail.Proofs.IdentityElision
import DualRail.Proofs.Doubles
import DualRail.Proofs.SuccessProbability
import DualRail.Proofs.GateSpelling
import DualRail.Proofs.OperandChoice
import DualRail.Proofs.SymbolicRewiring
import DualRail.Proofs.BatchSchedule
import DualRail.Proofs.Embedding
import DualRail.Proofs.Nesting
import DualRail.Proofs.NetworkUnitarity
import DualRail.Proofs.OperandAgreement
import DualRail.Proofs.RegistryNames
import DualRail.Proofs.RegistryExtension
import DualRail.Proofs.RoutingVector
import DualRail.Proofs.FoldedRewiring
import DualRail.Proofs.FragmentValidity
import DualRail.Proofs.MovingPart
import DualRail.Proofs.NearestDouble
import DualRail.Proofs.ProcessorValidity
import DualRail.Proofs.ShortestDigits
import DualRail.Proofs.DoubleText
import DualRail.Proofs.GateNormalForm
import DualRail.Proofs.ProgramValidity
import DualRail.Proofs.SingleQubitGates
import DualRail.Proofs.PermutationVectors
import DualRail.Proofs.PermutationMatrices
import DualRail.Proofs.FlatLoops
import DualRail.Proofs.DenseStorage
import DualRail.Proofs.FlatProduct
import DualRail.Proofs.BlockEmbedding
import DualRail.Proofs.DoubleRounding
import DualRail.Proofs.DoubleBounds
import DualRail.Proofs.UnitarityBound
