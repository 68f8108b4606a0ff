import Mos6502.Micro

namespace Mos6502

def pageZero (b : Byte) : Addr := b.toUInt16

/-- The address that `mode` gives an instruction at `r.pc`. Page-zero indexing wraps within the page,
absolute indexing within the address space; the word behind a pointer is read at two successive
addresses, whatever pages they lie in. -/
def Mode.resolve {σ : Type} (mode : Mode) (r : Registers) : Micro σ (Option Addr) :=
  match mode with
  | .implicit | .accumulator => return none
  | .immediate => return some (r.pc + 1)
  | .zeroPage => return some (pageZero (← Micro.read (r.pc + 1)))
  | .zeroPageX => return some (pageZero ((← Micro.read (r.pc + 1)) + r.x))
  | .zeroPageY => return some (pageZero ((← Micro.read (r.pc + 1)) + r.y))
  | .relative => return some (displace (r.pc + 2) (← Micro.read (r.pc + 1)))
  | .absolute => return some (← Micro.readWord (r.pc + 1))
  | .absoluteX => return some ((← Micro.readWord (r.pc + 1)) + r.x.toUInt16)
  | .absoluteY => return some ((← Micro.readWord (r.pc + 1)) + r.y.toUInt16)
  | .indirect => return some (← Micro.readWord (← Micro.readWord (r.pc + 1)))
  | .indirectX => return some (← Micro.readWord (pageZero ((← Micro.read (r.pc + 1)) + r.x)))
  | .indirectY =>
    return some ((← Micro.readWord (pageZero (← Micro.read (r.pc + 1)))) + r.y.toUInt16)

end Mos6502
