import TapeCompiler.Main
import TapeCompiler.CommandLine
import TapeCompiler.Compilation.World
import TapeCompiler.Layout.Emitter
import TapeCompiler.Proofs.OptimizerSoundness
import TapeCompiler.Proofs.CodeSimulation
import TapeCompiler.Proofs.SourceMeaning
import TapeCompiler.Proofs.Confluence
import TapeCompiler.Proofs.BracketFaults
import TapeCompiler.Proofs.Templates
import TapeCompiler.Proofs.Words
import TapeCompiler.Proofs.Labels
import TapeCompiler.Proofs.LabelledText
import TapeCompiler.Proofs.Arm.Text
import TapeCompiler.Proofs.Arm.Labels
import TapeCompiler.Proofs.Jasmin.Labels
import TapeCompiler.Proofs.Smali.Text
import TapeCompiler.Proofs.Smali.Labels
import TapeCompiler.Proofs.ResolvedLabels
import TapeCompiler.Proofs.Assembly
import TapeCompiler.Proofs.AssemblySimulation
import TapeCompiler.Proofs.Arm.Execution
import TapeCompiler.Proofs.Serving
import TapeCompiler.Proofs.Arm.Simulation
import TapeCompiler.Proofs.Jasmin.Execution
import TapeCompiler.Proofs.Jasmin.StackHeight
import TapeCompiler.Proofs.Jasmin.Simulation
import TapeCompiler.Proofs.CompiledRuns
import TapeCompiler.Proofs.Llvm.SingleAssignment
import TapeCompiler.Proofs.Wasm.Branches
import TapeCompiler.Proofs.Printing
import TapeCompiler.Proofs.CanonicalText
import TapeCompiler.Proofs.Settling
import TapeCompiler.Proofs.Engines
import TapeCompiler.Proofs.FullSink
import TapeCompiler.Proofs.Sessions
import TapeCompiler.Proofs.TextLines
import TapeCompiler.Proofs.Refusal
import TapeCompiler.Proofs.EmptiedLoops
import TapeCompiler.Proofs.AmountRange
import TapeCompiler.Proofs.Jumps
import TapeCompiler.Proofs.DebugText
import TapeCompiler.Proofs.Listing
import TapeCompiler.Proofs.BlockLanguages
import TapeCompiler.Proofs.LongerTape
import TapeCompiler.Proofs.InterruptedReads
import TapeCompiler.Proofs.FailedCalls
import TapeCompiler.Proofs.CursorCalls
import TapeCompiler.Proofs.RepeatedReading
import TapeCompiler.Proofs.FoldingInPlace
import TapeCompiler.Proofs.LoopLocality
import TapeCompiler.Proofs.EmittedConstants
import TapeCompiler.Proofs.EmitterScope
