import Mos6502.Bus.Guarded
import Mos6502.Bus.Recorded
import Mos6502.Bus.Wired
import Mos6502.CommandLine.Run
import Mos6502.Emulator
import Mos6502.Main
import Mos6502.Micro.Lemmas
import Mos6502.Proofs.InterruptDecision
import Mos6502.Proofs.StepAccesses
import Mos6502.Proofs.Runs
import Mos6502.Proofs.Refusal
import Mos6502.Proofs.BusFault
import Mos6502.Proofs.RunAgreement
import Mos6502.Proofs.Unobserved
import Mos6502.Proofs.Noninterference
import Mos6502.Proofs.PlainMemory
import Mos6502.Proofs.StackFrame
import Mos6502.Proofs.Subroutine
import Mos6502.Proofs.InterruptReturn
import Mos6502.Proofs.Faultless
import Mos6502.Proofs.Session
import Mos6502.Proofs.RequestLedger
import Mos6502.Proofs.InterruptNesting
import Mos6502.Proofs.Telling
import Mos6502.Proofs.Notification
import Mos6502.Proofs.GuardedRun
import Mos6502.Proofs.FaultReturn
import Mos6502.Proofs.Loading
import Mos6502.Proofs.Segments
import Mos6502.Proofs.RegisterWrites
import Mos6502.Proofs.PlainStep
import Mos6502.Proofs.ProgramCounter
import Mos6502.Proofs.Restart
import Mos6502.Proofs.Reporting
import Mos6502.Proofs.Allowance
import Mos6502.Proofs.Pacing
import Mos6502.Proofs.ProgramRun
import Mos6502.Proofs.OperandArithmetic
import Mos6502.Proofs.Comparison
import Mos6502.Proofs.BreakHandling
import Mos6502.Proofs.MultiByte
import Mos6502.Proofs.AddressArithmetic
import Mos6502.Proofs.ReadModifyWrite
import Mos6502.Proofs.MultiByteShift
import Mos6502.Proofs.LifoStack
import Mos6502.Proofs.AddressText
import Mos6502.Proofs.SegmentText
import Mos6502.Proofs.OptionText
import Mos6502.Proofs.Arguments
import Mos6502.Proofs.ReportText
import Mos6502.Proofs.ReportOutput
