import AbstractMachines.Folder
import AbstractMachines.Main
import AbstractMachines.Proofs.Atomicity
import AbstractMachines.Proofs.Embedding
import AbstractMachines.Proofs.Frames
import AbstractMachines.Proofs.Tracing
import AbstractMachines.Proofs.Tapes
import AbstractMachines.Proofs.Leftovers
import AbstractMachines.Proofs.Causality
import AbstractMachines.Proofs.RoundTrip
import AbstractMachines.Proofs.Typing
import AbstractMachines.Proofs.SlotLimit
import AbstractMachines.Proofs.Snapshots
import AbstractMachines.Proofs.FullSink
import AbstractMachines.Proofs.Driving
import AbstractMachines.Proofs.Addressing
import AbstractMachines.Proofs.Pulling
import AbstractMachines.Proofs.TraceLimit
import AbstractMachines.Proofs.Batch
import AbstractMachines.Proofs.Numerals
import AbstractMachines.Proofs.Grammar
import AbstractMachines.Proofs.SourceLines
import AbstractMachines.Proofs.Arithmetic
import AbstractMachines.Proofs.Jumps
import AbstractMachines.Proofs.Forward
import AbstractMachines.Proofs.ByReference
import AbstractMachines.Proofs.Composition
import AbstractMachines.Proofs.StackFrame
import AbstractMachines.Proofs.WriteHistory
import AbstractMachines.Proofs.CommonLanguage
import AbstractMachines.Proofs.EnteredLines
import AbstractMachines.Proofs.Prompting
import AbstractMachines.Proofs.Registration
