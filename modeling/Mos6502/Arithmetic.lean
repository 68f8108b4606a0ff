import Mos6502.Registers

namespace Mos6502

namespace Registers

def describe (r : Registers) (v : Byte) : Registers := r.setFlags (r.flags.describe v)

def load (r : Registers) (reg : Reg) (v : Byte) : Registers := (r.set reg v).describe v

def setCarry (r : Registers) (carry : Bool) : Registers := r.setFlags (r.flags.set .carry carry)

/-- Adds `m` and the carry to the accumulator. The carry leaves for an unsigned sum above 255, the
overflow flag for a signed sum outside `-128 … 127`. -/
def add (r : Registers) (m : Byte) : Registers :=
  let c := r.flags.carry.toNat
  let sum := r.a.toNat + m.toNat + c
  let signedSum := signed r.a + signed m + c
  let flags := { r.flags with
    carry := decide (256 ≤ sum)
    overflow := decide (signedSum < -128 ∨ 127 < signedSum) }
  (r.setFlags flags).load .a (UInt8.ofNat sum)

/-- Subtracts `m` and the borrow, which is a clear carry: with the complement of `m`,
`a - m - (1 - c) = a + (255 - m) + c - 256`. -/
def subtract (r : Registers) (m : Byte) : Registers := r.add (255 - m)

/-- Sets the flags as subtracting `m` from a register without borrow would; nothing is stored. -/
def compare (r : Registers) (reg : Reg) (m : Byte) : Registers :=
  (r.setCarry (decide (m ≤ r.get reg))).describe (r.get reg - m)

/-- Moves a register into another; into the stack pointer, flags stay as they are. -/
def transfer (r : Registers) (source target : Reg) : Registers :=
  if target = .sp then r.set .sp (r.get source) else r.load target (r.get source)

end Registers

def Logic.apply : Logic → Byte → Byte → Byte
  | .and, a, m => a &&& m
  | .or, a, m => a ||| m
  | .xor, a, m => a ^^^ m

def Shift.apply : Shift → Byte → Bool → Byte × Bool
  | .left, v, _ => (UInt8.ofNat (2 * v.toNat), decide (128 ≤ v.toNat))
  | .rotateLeft, v, c => (UInt8.ofNat (2 * v.toNat + c.toNat), decide (128 ≤ v.toNat))
  | .right, v, _ => (UInt8.ofNat (v.toNat / 2), v.toNat % 2 == 1)
  | .rotateRight, v, c => (UInt8.ofNat (v.toNat / 2 + 128 * c.toNat), v.toNat % 2 == 1)

end Mos6502
