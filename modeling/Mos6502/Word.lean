namespace Mos6502

abbrev Byte := UInt8

/-- Addresses are words: arithmetic on them wraps at the top of the address space. -/
abbrev Addr := UInt16

/-- The word with low byte `lo` and high byte `hi`. -/
def word (lo hi : Byte) : Addr := UInt16.ofNat (lo.toNat + 256 * hi.toNat)

def lowByte (w : Addr) : Byte := UInt8.ofNat (w.toNat % 256)

def highByte (w : Addr) : Byte := UInt8.ofNat (w.toNat / 256)

/-- A byte read in two's complement: `-128 … 127`. -/
def signed (b : Byte) : Int := if b.toNat < 128 then b.toNat else b.toNat - 256

/-- The address at the signed distance `d` from `addr`. -/
def displace (addr : Addr) (d : Byte) : Addr := UInt16.ofInt (addr.toNat + signed d)

theorem word_toNat (lo hi : Byte) : (word lo hi).toNat = lo.toNat + 256 * hi.toNat := by
  have hl := lo.toNat_lt
  have hh := hi.toNat_lt
  simp only [word, UInt16.toNat_ofNat']
  omega

@[simp] theorem lowByte_word (lo hi : Byte) : lowByte (word lo hi) = lo := by
  have hl := lo.toNat_lt
  apply UInt8.toNat_inj.1
  simp only [lowByte, word_toNat, UInt8.toNat_ofNat']
  omega

@[simp] theorem highByte_word (lo hi : Byte) : highByte (word lo hi) = hi := by
  have hl := lo.toNat_lt
  have hh := hi.toNat_lt
  apply UInt8.toNat_inj.1
  simp only [highByte, word_toNat, UInt8.toNat_ofNat']
  omega

@[simp] theorem word_lowByte_highByte (w : Addr) : word (lowByte w) (highByte w) = w := by
  have hw := w.toNat_lt
  apply UInt16.toNat_inj.1
  simp only [word_toNat, lowByte, highByte, UInt8.toNat_ofNat']
  omega

end Mos6502
