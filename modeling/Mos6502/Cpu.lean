import Mos6502.Micro

namespace Mos6502

structure Cpu where
  regs : Registers := {}
  /-- The latched interrupt request: there is room for one. -/
  pending : Option Interrupt := none
  /-- Set when the program counter is already where the next instruction begins. -/
  holdPc : Bool := false
  /-- The instruction carried out last, or under way. -/
  current : Option Instruction := none
  /-- The opcode fetched last. -/
  fetched : Byte := 0
  /-- How many instructions have completed. -/
  executed : Nat := 0
  deriving DecidableEq, Repr, Inhabited

namespace Cpu

def mapRegs (f : Registers → Registers) (c : Cpu) : Cpu := { c with regs := f c.regs }

def goTo (target : Addr) (c : Cpu) : Cpu := { c with regs := c.regs.setPc target, holdPc := true }

/-- Moves the program counter behind `i`, unless it is held. A hold lasts for one instruction. -/
def advance (i : Instruction) (c : Cpu) : Cpu :=
  if c.holdPc then { c with holdPc := false }
  else c.mapRegs fun r => r.setPc (r.pc + UInt16.ofNat i.size)

def modifyRegs (f : Registers → Registers) : Micro Cpu Unit := modify (mapRegs f)

def jump (target : Addr) : Micro Cpu Unit := modify (goTo target)

def stackAddr (sp : Byte) : Addr := 0x0100 + sp.toUInt16

/-- Writes, then moves the stack pointer down; it wraps within page one. -/
def push (v : Byte) : Micro Cpu Unit := do
  let sp := (← get).regs.sp
  Micro.write (stackAddr sp) v
  modifyRegs (·.set .sp (sp - 1))

def pop : Micro Cpu Byte := do
  let sp := (← get).regs.sp + 1
  modifyRegs (·.set .sp sp)
  Micro.read (stackAddr sp)

/-- The high byte goes first, so that the word lies in memory low byte first. -/
def pushWord (w : Addr) : Micro Cpu Unit := do
  push (highByte w)
  push (lowByte w)

def popWord : Micro Cpu Addr := do
  let lo ← pop
  let hi ← pop
  return word lo hi

end Cpu

end Mos6502
