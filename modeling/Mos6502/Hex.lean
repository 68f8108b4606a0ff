import Mos6502.Word

namespace Mos6502.Hex

def digit (n : Nat) : Char := Char.ofNat (if n < 10 then 48 + n else 55 + n)

def value? (c : Char) : Option Nat :=
  if '0' ≤ c ∧ c ≤ '9' then some (c.toNat - 48)
  else if 'A' ≤ c ∧ c ≤ 'F' then some (c.toNat - 55)
  else if 'a' ≤ c ∧ c ≤ 'f' then some (c.toNat - 87)
  else none

def byteChars (b : Byte) : List Char := [digit (b.toNat / 16), digit (b.toNat % 16)]

def byte (b : Byte) : String := String.ofList (byteChars b)

def word (w : Addr) : String := String.ofList (byteChars (highByte w) ++ byteChars (lowByte w))

theorem value?_digit : ∀ n < 16, value? (digit n) = some n := by decide

theorem byteChars_injective {a b : Byte} (h : byteChars a = byteChars b) : a = b := by
  have ha := a.toNat_lt
  have hb := b.toNat_lt
  simp only [byteChars, List.cons.injEq, and_true] at h
  have hi := congrArg value? h.1
  have lo := congrArg value? h.2
  rw [value?_digit _ (by omega), value?_digit _ (by omega), Option.some.injEq] at hi lo
  apply UInt8.toNat_inj.1
  omega

end Mos6502.Hex
