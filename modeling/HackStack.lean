import HackStack.Main
import HackStack.Operands
import HackStack.Proofs.Lowering.Templates
import HackStack.Samples
import HackStack.Proofs.Lowering.Commands
import HackStack.Proofs.Lowering.Requests
import HackStack.Proofs.Translation.Files
import HackStack.Proofs.Translation.Labels
import HackStack.Proofs.Translation.Statics
import HackStack.Proofs.Sources
import HackStack.Proofs.Translation.Driver
import HackStack.Proofs.Simulation.Refinement
import HackStack.Proofs.Simulation.Outcome
import HackStack.Proofs.Machine.Ticks
import HackStack.Proofs.Translation.Failures
import HackStack.Proofs.Asm.Variables
import HackStack.Proofs.Machine.Ties
import HackStack.Proofs.Lowering.Mirrors
import HackStack.Proofs.Lowering.Lockstep
import HackStack.Proofs.Lowering.StaticSymbols
import HackStack.Proofs.Translation.Modes
import HackStack.Proofs.Translation.Symbols
import HackStack.Proofs.Asm.Grammar
import HackStack.Proofs.Asm.Passes
import HackStack.Proofs.Asm.Addresses
import HackStack.Proofs.Machine.Loaded
import HackStack.Proofs.Asm.Rendered
import HackStack.Proofs.Lint
import HackStack.Proofs.Translation.Emissions
import HackStack.Proofs.Translation.Accepted
import HackStack.Proofs.Text.Words
import HackStack.Proofs.Lint.Sound
import HackStack.Proofs.Command.Written
import HackStack.Proofs.Asm.Remarks
import HackStack.Proofs.Translation.Annotations
import HackStack.Proofs.Lowering.Onward
import HackStack.Proofs.Translation.Termination
import HackStack.Proofs.Machine.Schedule
import HackStack.Proofs.Suite.Verdicts
import HackStack.Proofs.Suite.Reports
import HackStack.Proofs.Translation.Outputs
import HackStack.Proofs.Translation.StaticArea
import HackStack.Proofs.Machine.Mnemonics
import HackStack.Proofs.Translation.FailFast
import HackStack.Proofs.Listing
import HackStack.Proofs.Command.Faults
import HackStack.Proofs.Asm.Renaming
import HackStack.Proofs.Lowering.Answers
import HackStack.Proofs.CommandLine.Run
import HackStack.Proofs.CommandLine.Translate
