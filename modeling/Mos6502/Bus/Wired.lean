import Mos6502.Memory

namespace Mos6502

structure Wired where
  memory : Memory := .zero
  line : Bool := false
  /-- The cell whose top bit drives the line, if one does. -/
  source : Option Addr := none

instance : Bus Wired where
  read w addr := (.ok (w.memory.read addr), w)
  write w addr v := (.ok (), { w with memory := w.memory.write addr v })
  peek w := w.memory.read
  poll w := (.ok (w.line || w.source.any fun addr => 128 ≤ (w.memory.read addr).toNat), w)

end Mos6502
