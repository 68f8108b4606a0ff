import Mos6502.Word

namespace Mos6502

inductive Interrupt where
  | nmi
  | reset
  /-- Raised by the interrupt line of the bus; masked while interrupts are disabled. -/
  | irq
  /-- Raised by `BRK`. -/
  | brk
  deriving DecidableEq, Repr

namespace Interrupt

def vector : Interrupt → Addr
  | .nmi => 0xFFFA
  | .reset => 0xFFFC
  | .irq | .brk => 0xFFFE

def savesState : Interrupt → Bool
  | .reset => false
  | _ => true

def breakBit : Interrupt → Bool
  | .brk => true
  | _ => false

def name : Interrupt → String
  | .nmi => "Nmi"
  | .reset => "Reset"
  | .irq => "Irq"
  | .brk => "Break"

end Interrupt

end Mos6502
