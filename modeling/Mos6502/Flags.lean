import Mos6502.Word

namespace Mos6502

structure Flags where
  negative : Bool := false
  overflow : Bool := false
  decimal : Bool := false
  interruptDisable : Bool := false
  zero : Bool := false
  carry : Bool := false
  deriving DecidableEq, Repr, Inhabited

inductive Flag where
  | negative | overflow | decimal | interruptDisable | zero | carry
  deriving DecidableEq, Repr

namespace Flags

def get (f : Flags) : Flag → Bool
  | .negative => f.negative
  | .overflow => f.overflow
  | .decimal => f.decimal
  | .interruptDisable => f.interruptDisable
  | .zero => f.zero
  | .carry => f.carry

def set (f : Flags) (flag : Flag) (value : Bool) : Flags :=
  match flag with
  | .negative => { f with negative := value }
  | .overflow => { f with overflow := value }
  | .decimal => { f with decimal := value }
  | .interruptDisable => { f with interruptDisable := value }
  | .zero => { f with zero := value }
  | .carry => { f with carry := value }

/-- The status byte: bit 5 is always set, bit 4 is the break bit. -/
def toByte (f : Flags) (breakBit : Bool) : Byte :=
  UInt8.ofNat (128 * f.negative.toNat + 64 * f.overflow.toNat + 32 + 16 * breakBit.toNat +
    8 * f.decimal.toNat + 4 * f.interruptDisable.toNat + 2 * f.zero.toNat + f.carry.toNat)

/-- The flags in a status byte; bits 5 and 4 say nothing about them. -/
def ofByte (b : Byte) : Flags where
  negative := b.toNat / 128 % 2 == 1
  overflow := b.toNat / 64 % 2 == 1
  decimal := b.toNat / 8 % 2 == 1
  interruptDisable := b.toNat / 4 % 2 == 1
  zero := b.toNat / 2 % 2 == 1
  carry := b.toNat % 2 == 1

def describe (f : Flags) (v : Byte) : Flags :=
  { f with zero := v == 0, negative := decide (128 ≤ v.toNat) }

theorem get_set (f : Flags) (flag other : Flag) (value : Bool) :
    (f.set flag value).get other = if other = flag then value else f.get other := by
  cases flag <;> cases other <;> rfl

@[simp] theorem ofByte_toByte (f : Flags) (breakBit : Bool) : ofByte (f.toByte breakBit) = f := by
  rcases f with ⟨n, v, d, i, z, c⟩
  cases n <;> cases v <;> cases d <;> cases i <;> cases z <;> cases c <;> cases breakBit <;> rfl

end Flags

end Mos6502
