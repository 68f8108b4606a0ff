import Mos6502.Error
import Mos6502.Interrupt
import Mos6502.Registers

namespace Mos6502

/-- How much is logged: lines of a level and of all levels before it. -/
inductive LogLevel where
  | off | error | warn | info | debug | trace
  deriving DecidableEq, Repr

namespace LogLevel

def name : LogLevel → String
  | .off => "OFF"
  | .error => "ERROR"
  | .warn => "WARN"
  | .info => "INFO"
  | .debug => "DEBUG"
  | .trace => "TRACE"

def rank : LogLevel → Nat
  | .off => 0
  | .error => 1
  | .warn => 2
  | .info => 3
  | .debug => 4
  | .trace => 5

def all : List LogLevel := [.off, .error, .warn, .info, .debug, .trace]

def admits (limit line : LogLevel) : Bool := line.rank ≤ limit.rank

end LogLevel

inductive SinkFailure where
  | full
  | flush
  deriving DecidableEq, Repr

def SinkFailure.message : SinkFailure → String
  | .full => "sink full"
  | .flush => "flush failed"

inductive LogLine where
  /-- The instruction at `pc` completed and left `regs`. -/
  | completed (pc : Addr) (instruction : Instruction) (regs : Registers)
  | irqMasked (pc : Addr)
  | servicing (kind : Interrupt) (pc handler : Addr)
  /-- A request found `pending` latched already. -/
  | dropped (kind pending : Interrupt)
  | started (pc : Addr) (observers : Nat)
  | stopped (pc : Addr) (executed : Nat)
  | failed (error : ExecError)
  | limitReached (limit : Nat)
  | outputFailed (why : SinkFailure)
  | inputEnded
  | loaded (count : Nat) (path : String) (first last : Addr)
  deriving DecidableEq, Repr

namespace LogLine

def level : LogLine → LogLevel
  | .completed .. | .irqMasked .. => .trace
  | .failed .. | .outputFailed .. => .warn
  | _ => .debug

def message : LogLine → String
  | .completed pc i r =>
    s!"0x{Hex.word pc}: {i.mnemonic.name} {i.mode.name} -> PC=0x{Hex.word r.pc} " ++
      s!"A=0x{Hex.byte r.a} X=0x{Hex.byte r.x} Y=0x{Hex.byte r.y} SP=0x{Hex.byte r.sp} " ++
      s!"P=0x{Hex.byte (r.flags.toByte false)}"
  | .irqMasked pc => s!"IRQ masked at 0x{Hex.word pc}"
  | .servicing kind pc handler =>
    s!"servicing {kind.name} at 0x{Hex.word pc}, jumping to 0x{Hex.word handler}"
  | .dropped kind pending => s!"{kind.name} dropped, Some({pending.name}) already pending"
  | .started pc observers =>
    s!"emulation started at 0x{Hex.word pc} with {observers} observer(s)"
  | .stopped pc executed =>
    s!"emulation stopped at 0x{Hex.word pc} after {executed} instructions"
  | .failed error => s!"emulation stopped: {error.message}"
  | .limitReached limit => s!"instruction limit of {limit} reached"
  | .outputFailed why => s!"debug output failed, stopping: {why.message}"
  | .inputEnded => "no more input in step mode, stopping"
  | .loaded count path first last =>
    s!"loaded {count} bytes from {path} into 0x{Hex.word first}..=0x{Hex.word last}"

def render (l : LogLine) : String := s!"{l.level.name} {l.message}"

end LogLine

/-- What an observer is shown: the registers an instruction left, the instruction, and how many have
completed, this one included. -/
structure View where
  regs : Registers
  instruction : Instruction
  executed : Nat
  deriving DecidableEq, Repr

/-- A view kept under a name, with one cell of memory and whether a stop was already asked for. -/
structure Snapshot where
  name : String
  view : View
  peek : Byte
  stopSeen : Bool
  deriving DecidableEq, Repr

inductive Note where
  | log (line : LogLine)
  /-- Text printed by the observer at position `observer` of the list. -/
  | printed (observer : Nat) (text : String)
  | snapshot (s : Snapshot)
  /-- A pause of `ms` milliseconds was asked for. -/
  | pause (ms : Nat)
  deriving DecidableEq, Repr

def Note.isPrinted : Note → Bool
  | .printed .. => true
  | _ => false

/-- Logging drops lines beyond its level; what observers produce is always kept. -/
def Note.kept (limit : LogLevel) : Note → Bool
  | .log line => limit.admits line.level
  | _ => true

end Mos6502
