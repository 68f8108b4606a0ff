import Mos6502.Observer

namespace Mos6502

namespace Report

def flagsLine (f : Flags) : String :=
  s!"Neg: {f.negative}, Ovr: {f.overflow}, Dec: {f.decimal}, Int: {f.interruptDisable}, " ++
    s!"Zer: {f.zero}, Car: {f.carry}\n"

def registersLine (r : Registers) : String :=
  s!"PC: 0x{Hex.word r.pc}, SP: 0x{Hex.byte r.sp}, A: 0x{Hex.byte r.a}, X: 0x{Hex.byte r.x}, " ++
    s!"Y: 0x{Hex.byte r.y}"

def instructionLine (i : Instruction) : String :=
  s!"Result of instruction 0x{Hex.byte i.opcode} ({i.mnemonic.name}, {i.mode.name})\n"

def heading (v : View) : String :=
  "\n" ++ instructionLine v.instruction ++ flagsLine v.regs.flags ++ registersLine v.regs ++ "\n"

def rowLabel (addr : Addr) : String := s!"0x{Hex.word addr}:"

def cell (v : Byte) : String := s!" {Hex.byte v}"

variable {ω : Type}

/-- Prints the `count` cells from `addr` on, each as soon as it is read. -/
def printCells (self : ω) (next : Probe ω) : (count : Nat) → Addr → Probe ω
  | 0, _ => next
  | count + 1, addr =>
    .read self addr fun v => .print (cell v) (printCells self next count (addr + 1))

def printRows (self : ω) (next : Probe ω) : (count : Nat) → Addr → Probe ω
  | 0, _ => next
  | count + 1, addr =>
    .print (rowLabel addr) <|
      printCells self (.print "\n" (printRows self next count (addr + 16))) 16 addr

def print (self : ω) (v : View) (zeroPage : Bool) (next : Probe ω) : Probe ω :=
  .print (heading v) (if zeroPage then .print "Zeropage:\n" (printRows self next 16 0) else next)

end Report

/-- Where reports go: it takes `room` more of them, or any number, and then refuses what is written
or, if `atFlush`, only fails to deliver it. -/
structure Sink where
  room : Option Nat := none
  atFlush : Bool := false
  deriving DecidableEq, Repr

/-- Prints a report per instruction and stops when one cannot be delivered. With an `input`, waits for
a line of it behind each report, and stops when there is none. -/
structure Reporter where
  zeroPage : Bool := false
  sink : Sink := {}
  input : Option (List String) := none
  delay : Nat := 0
  deriving DecidableEq, Repr

namespace Reporter

def wait (o : Reporter) : Probe Reporter :=
  match o.input with
  | some [] => .log .inputEnded (.done o .ask)
  | some (_ :: lines) => .done { o with input := some lines } .leave
  | none => if o.delay = 0 then .done o .leave else .pause o.delay (.done o .leave)

instance : Observer Reporter where
  notify v _ o :=
    match o.sink.room with
    | none => Report.print o v o.zeroPage o.wait
    | some (n + 1) =>
      Report.print o v o.zeroPage { o with sink := { o.sink with room := some n } }.wait
    | some 0 =>
      if o.sink.atFlush then
        Report.print o v o.zeroPage (.log (.outputFailed .flush) (.done o .ask))
      else
        .log (.outputFailed .full) (.done o .ask)

end Reporter

end Mos6502
