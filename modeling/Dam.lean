import Dam.Main
import Dam.Proofs.Emission
import Dam.Proofs.Slots
import Dam.Proofs.FrameHistory
import Dam.Proofs.ControlFlow
import Dam.Proofs.SlotUse
import Dam.Proofs.Judgement
import Dam.Proofs.OperandStack
import Dam.Proofs.Linkage
import Dam.Proofs.ReachingStores
import Dam.Proofs.SettledLoads
import Dam.Proofs.Machine
import Dam.Proofs.Orders
import Dam.Proofs.RecordedTypes
import Dam.Proofs.Simulation
import Dam.Proofs.StackDepth
import Dam.Proofs.Lexemes
import Dam.Proofs.Lookahead
import Dam.Proofs.Spans
import Dam.Proofs.Printing
import Dam.Proofs.ParserSteps
import Dam.Proofs.Lines
import Dam.Proofs.Shapes
import Dam.Proofs.Relocation
import Dam.Proofs.UnplacedParsing
import Dam.Proofs.Layout
import Dam.Proofs.Diagnostics
import Dam.Proofs.Grammar
import Dam.Proofs.NodeRanges
import Dam.Proofs.GrammarSoundness
import Dam.Proofs.Passage
import Dam.Proofs.Recovery
import Dam.Proofs.GrammarCompleteness
import Dam.Proofs.Slices
import Dam.Proofs.Escapes
import Dam.Proofs.NumberText
import Dam.Proofs.CodeLines
import Dam.Proofs.ClassReading
import Dam.Proofs.Coupling
import Dam.Proofs.EvaluationOrder
import Dam.Proofs.Renaming
import Dam.Proofs.TypeTable
import Dam.Proofs.JsonText
import Dam.Proofs.JsonNumbers
import Dam.Proofs.ProgramJson
import Dam.Proofs.Grouping
import Dam.Proofs.DepthWalk
import Dam.Proofs.Paths
import Dam.Proofs.Locations
import Dam.Proofs.FileActions
import Dam.Proofs.Footprint
import Dam.Proofs.StringConstants
import Dam.Proofs.Resumption
import Dam.Proofs.NodeIds
import Dam.Proofs.Discovery
import Dam.Proofs.Growth
import Dam.Proofs.Descriptors
import Dam.Proofs.WordSizes
