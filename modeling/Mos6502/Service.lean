import Mos6502.Cpu

namespace Mos6502.Cpu

def latch (pending : Option Interrupt) (c : Cpu) : Cpu := { c with pending }

/-- Latches a request; one that finds the latch taken is dropped. Says which. -/
def request (kind : Interrupt) : Micro Cpu Bool := do
  match (← get).pending with
  | some pending =>
    Micro.log (.dropped kind pending)
    return false
  | none =>
    modify (latch (some kind))
    return true

def handler (kind : Interrupt) : Micro Cpu Addr := Micro.readWord kind.vector

def save (kind : Interrupt) : Micro Cpu Unit := do
  let r := (← get).regs
  pushWord r.pc
  push (r.flags.toByte kind.breakBit)

def enter (kind : Interrupt) : Micro Cpu Unit := do
  if kind.savesState then
    save kind
  let target ← handler kind
  Micro.log (.servicing kind (← get).regs.pc target)
  modifyRegs fun r => (r.setFlags (r.flags.set .interruptDisable true)).setPc target

/-- Empties the latch and services what was in it, but for an `irq` while interrupts are disabled. -/
def service : Micro Cpu Unit := do
  let c ← get
  match c.pending with
  | none => return
  | some kind =>
    modify (latch none)
    if kind = .irq ∧ c.regs.flags.interruptDisable then
      Micro.log (.irqMasked c.regs.pc)
    else
      enter kind

/-- A reset takes the place of whatever was latched, and is serviced at once. -/
def reset : Micro Cpu Unit := do
  modify (latch (some .reset))
  service

end Mos6502.Cpu
