import Mos6502.Error

namespace Mos6502

/-- A device on the bus answers an access or faults, and either may change it. So it is with a poll of
its interrupt line, which happens once per instruction. -/
class Bus (β : Type) where
  read : β → Addr → Except Fault Byte × β
  write : β → Addr → Byte → Except Fault Unit × β
  /-- The byte in a cell, seen without an access. -/
  peek : β → Addr → Byte
  poll : β → Except Fault Bool × β

namespace Bus

variable {β : Type} [Bus β]

/-- The line asks for an interrupt. Where the poll faults, nothing is asked for. -/
def irq (b : β) : Bool :=
  match (poll b).1 with
  | .ok line => line
  | .error _ => false

def polled (b : β) : β := (poll b).2

theorem poll_of_irq {b : β} (h : irq b = true) : poll b = (.ok true, polled b) := by
  unfold irq at h
  split at h
  · rename_i hp
    rw [h] at hp
    exact Prod.ext hp rfl
  · cases h

end Bus

inductive AccessKind where
  | read | write
  deriving DecidableEq, Repr

structure Access where
  kind : AccessKind
  addr : Addr
  value : Byte
  deriving DecidableEq, Repr

end Mos6502
