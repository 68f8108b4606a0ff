import Mathlib.Data.Nat.Bitwise
import Mos6502.Proofs.ProgramCounter

namespace Mos6502

theorem testBit_sign (b : Byte) : b.toNat.testBit 7 = decide (128 ≤ b.toNat) := by
  have hb := b.toNat_lt
  rw [Nat.testBit_eq_decide_div_mod_eq]
  apply decide_eq_decide.2
  omega

theorem and_sign (b : Byte) : (b &&& 0x80 != 0) = b.toNat.testBit 7 := by
  have masked : (b &&& 0x80).toNat = (b.toNat.testBit 7).toNat * 128 := by
    rw [UInt8.toNat_and]
    exact Nat.and_two_pow b.toNat 7
  rw [Bool.eq_iff_iff, bne_iff_ne, ne_eq, ← UInt8.toNat_inj, masked]
  cases b.toNat.testBit 7 <;> simp

/-- A signed sum leaves the range of a byte just if its low byte has not the sign of either summand. -/
theorem signed_overflow_iff (a m : Byte) {c : Nat} (hc : c ≤ 1) {s : Byte}
    (hs : s = UInt8.ofNat (a.toNat + m.toNat + c)) :
    (signed a + signed m + c < -128 ∨ 127 < signed a + signed m + c) ↔
      (a ^^^ s) &&& (m ^^^ s) &&& 0x80 ≠ 0 := by
  have ha := a.toNat_lt
  have hm := m.toNat_lt
  have bits : (a ^^^ s) &&& (m ^^^ s) &&& 0x80 ≠ 0 ↔
      ((decide (128 ≤ a.toNat) ^^ decide (128 ≤ s.toNat)) &&
        (decide (128 ≤ m.toNat) ^^ decide (128 ≤ s.toNat))) = true := by
    rw [← bne_iff_ne, and_sign, UInt8.toNat_and, Nat.testBit_and, UInt8.toNat_xor,
      UInt8.toNat_xor, Nat.testBit_xor, Nat.testBit_xor, testBit_sign, testBit_sign, testBit_sign]
  have sum : s.toNat = (a.toNat + m.toNat + c) % 256 := by
    rw [hs, UInt8.toNat_ofNat']
  rw [bits, Bool.and_eq_true, bne_iff_ne, bne_iff_ne, ne_eq, ne_eq, decide_eq_decide,
    decide_eq_decide]
  unfold signed
  split <;> split <;> omega

theorem toNat_complement (b : Byte) : (255 - b).toNat = 255 - b.toNat := by
  have hb := b.toNat_lt
  apply UInt8.toNat_sub_of_le 255 b
  rw [UInt8.le_iff_toNat_le]
  show b.toNat ≤ 255
  omega

theorem signed_complement (b : Byte) : signed (255 - b) = -1 - signed b := by
  have hb := b.toNat_lt
  unfold signed
  rw [toNat_complement]
  split <;> split <;> omega

namespace Registers

/-- The addition as an adder makes it: bit 8 of a wide sum is the carry, and there is an overflow where
the sign of the result differs from those of both summands. -/
def addWide (r : Registers) (m : Byte) : Registers :=
  let sum : UInt16 := r.a.toUInt16 + m.toUInt16 + UInt16.ofNat r.flags.carry.toNat
  let result := sum.toUInt8
  let flags := { r.flags with
    carry := decide (0xFF < sum)
    overflow := decide ((r.a ^^^ result) &&& (m ^^^ result) &&& 0x80 ≠ 0) }
  (r.setFlags flags).load .a result

theorem add_eq_addWide (r : Registers) (m : Byte) : r.add m = r.addWide m := by
  have ha := r.a.toNat_lt
  have hm := m.toNat_lt
  have hc := r.flags.carry.toNat_le
  unfold add addWide
  generalize hsum : r.a.toUInt16 + m.toUInt16 + UInt16.ofNat r.flags.carry.toNat = sum
  have wide : sum.toNat = r.a.toNat + m.toNat + r.flags.carry.toNat := by
    rw [← hsum]
    simp
    omega
  have result : sum.toUInt8 = UInt8.ofNat (r.a.toNat + m.toNat + r.flags.carry.toNat) := by
    apply UInt8.toNat_inj.1
    rw [UInt16.toNat_toUInt8, wide, UInt8.toNat_ofNat']
  have carry : 256 ≤ r.a.toNat + m.toNat + r.flags.carry.toNat ↔ 0xFF < sum := by
    rw [UInt16.lt_iff_toNat_lt, wide]
    exact Iff.rfl
  have overflow := signed_overflow_iff r.a m hc result
  simp only [carry, overflow, result]

theorem subtract_eq_addWide (r : Registers) (m : Byte) : r.subtract m = r.addWide (~~~m) := by
  have complement : ~~~m = 255 - m := by
    apply UInt8.toNat_inj.1
    rw [toNat_complement]
    simp
  rw [complement]
  exact r.add_eq_addWide (255 - m)

/-- With a borrow, which is a clear carry, the accumulator is left with the difference. The carry is
set again unless the difference is negative, the overflow flag if the signed difference is outside
`-128 … 127`. -/
theorem subtract_eq (r : Registers) (m : Byte) :
    let borrow : Int := 1 - r.flags.carry.toNat
    let difference : Int := r.a.toNat - m.toNat - borrow
    let signedDifference := signed r.a - signed m - borrow
    r.subtract m = (r.setFlags { r.flags with
      carry := decide (0 ≤ difference)
      overflow := decide (signedDifference < -128 ∨ 127 < signedDifference) }).load .a
        (UInt8.ofInt difference) := by
  intro borrow difference signedDifference
  have hm := m.toNat_lt
  have complement := toNat_complement m
  have result : UInt8.ofInt difference =
      UInt8.ofNat (r.a.toNat + (255 - m).toNat + r.flags.carry.toNat) := by
    apply UInt8.toNat_inj.1
    rw [UInt8.ofInt, UInt8.toNat_ofNat', UInt8.toNat_ofNat']
    omega
  have carry : 256 ≤ r.a.toNat + (255 - m).toNat + r.flags.carry.toNat ↔ 0 ≤ difference := by
    omega
  have sum : signed r.a + signed (255 - m) + r.flags.carry.toNat = signedDifference := by
    rw [signed_complement]
    omega
  unfold subtract add
  simp only [result, carry, sum]

end Registers

namespace Mnemonic

def destination : Mnemonic → Reg
  | .LDX => .x
  | .LDY => .y
  | _ => .a

/-- The result, from the accumulator `a`, the byte `m` that is read and the carry `c`. -/
def result (mnemonic : Mnemonic) (a m : Byte) (c : Bool) : Byte :=
  match mnemonic with
  | .AND => a &&& m
  | .ORA => a ||| m
  | .EOR => a ^^^ m
  | .ADC => UInt8.ofNat (a.toNat + m.toNat + c.toNat)
  | .SBC => UInt8.ofInt (a.toNat - m.toNat - (1 - c.toNat))
  | _ => m

/-- The carry behind it: set by a sum that needs another bit, and by a difference that does not borrow. -/
def carryOut (mnemonic : Mnemonic) (a m : Byte) (c : Bool) : Bool :=
  match mnemonic with
  | .ADC => decide (256 ≤ a.toNat + m.toNat + c.toNat)
  | .SBC => decide ((0 : Int) ≤ a.toNat - m.toNat - (1 - c.toNat))
  | _ => c

/-- The overflow flag behind it, which was `v`: set by a signed result outside of `-128 … 127`. -/
def overflowOut (mnemonic : Mnemonic) (a m : Byte) (c v : Bool) : Bool :=
  let outside (n : Int) : Bool := decide (n < -128 ∨ 127 < n)
  match mnemonic with
  | .ADC => outside (signed a + signed m + c.toNat)
  | .SBC => outside (signed a - signed m - (1 - c.toNat))
  | _ => v

end Mnemonic

/-- The registers behind an instruction that has read the byte `m`, but for the program counter. -/
def Registers.combine (r : Registers) (mnemonic : Mnemonic) (m : Byte) : Registers :=
  let c := r.flags.carry
  let result := mnemonic.result r.a m c
  (r.set mnemonic.destination result).setFlags { r.flags with
    carry := mnemonic.carryOut r.a m c
    overflow := mnemonic.overflowOut r.a m c r.flags.overflow
    zero := decide (result = 0)
    negative := decide (128 ≤ result.toNat) }

/-- What an operation makes of the registers that does nothing else but read one byte. -/
def Operation.effect : Operation → Option (Byte → Registers → Registers)
  | .load reg => some fun m r => r.load reg m
  | .add => some fun m r => r.add m
  | .subtract => some fun m r => r.subtract m
  | .logic op => some fun m r => r.load .a (op.apply r.a m)
  | .compare reg => some fun m r => r.compare reg m
  | _ => none

def Mnemonic.combining : List Mnemonic := [.LDA, .LDX, .LDY, .AND, .ORA, .EOR, .ADC, .SBC]

theorem Mnemonic.effect_of_combining {mnemonic : Mnemonic} (h : mnemonic ∈ combining) :
    mnemonic.operation.effect = some fun m r => r.combine mnemonic m := by
  cases mnemonic with
  | SBC =>
    have difference : (fun m r => Registers.subtract r m) = fun m r => r.combine .SBC m := by
      funext m r
      exact r.subtract_eq m
    exact congrArg some difference
  | LDA | LDX | LDY | AND | ORA | EOR | ADC => rfl
  | _ => simp [combining] at h

theorem Operation.pc_effect {op : Operation} {effect : Byte → Registers → Registers}
    (h : op.effect = some effect) (m : Byte) (r : Registers) : (effect m r).pc = r.pc := by
  cases op with
  | load | logic =>
    cases h
    exact Registers.pc_load ..
  | add | subtract | compare =>
    cases h
    rfl
  | _ => cases h

theorem Cpu.Performs.reads {i : Instruction} {target : Option Addr} {c c' : Cpu} {op : Operation}
    {es : List Event} (h : Performs i target c op es c') {effect : Byte → Registers → Registers}
    (he : op.effect = some effect) : ∃ addr m, target = some addr ∧
      es = [.access ⟨.read, addr, m⟩] ∧ c' = c.mapRegs (effect m) := by
  cases h with
  | load ht | add ht | subtract ht | logic ht | compare ht =>
    cases he
    exact ⟨_, _, ht, rfl, rfl⟩
  | _ => cases he

namespace Machine

variable {ω : Type} [Observer ω] {m : Machine Memory ω} {i : Instruction}

theorem step_of_effect (hp : m.cpu.pending = none)
    (hd : Instruction.decode (m.bus.read m.cpu.regs.pc) = some i)
    {effect : Byte → Registers → Registers} (he : i.mnemonic.operation.effect = some effect) :
    ∃ addr, i.mode.effective m.bus m.cpu.regs = some addr ∧ m.step.2.bus = m.bus ∧
      m.step.2.cpu.regs = (effect (m.bus.read addr) m.cpu.regs).setPc (m.cpu.behind i) ∧
      ((∀ o ∈ m.observers, Observer.NeverFaults o) → m.step.1 = .ok ()) := by
  have ready : m.Ready i := ⟨hp, hd⟩
  obtain ⟨carried, notBrk⟩ := Operation.carried (g := Operation.effect) rfl rfl he
  obtain ⟨work, c, performs, worked, cpu, -, completes⟩ := ready.step carried notBrk
  obtain ⟨addr, v, found, rfl, rfl⟩ := performs.reads he
  simp only [Memory.answers_read, Memory.answers_nil] at worked
  obtain ⟨rfl, bus⟩ := worked
  refine ⟨addr, found, bus, ?_, completes⟩
  rw [cpu, Cpu.regs_complete, Cpu.behind_mapRegs _ (Operation.pc_effect he _ _)]
  rfl

/-- With nothing latched, an instruction that loads a byte or combines it with the accumulator leaves
the result, the flags that describe it and, for a sum or a difference, carry and overflow, from the
byte at the effective address. Nothing else changes but the program counter. -/
theorem operands_are_combined (hp : m.cpu.pending = none)
    (hd : Instruction.decode (m.bus.read m.cpu.regs.pc) = some i)
    (hi : i.mnemonic ∈ Mnemonic.combining) :
    ∃ addr, i.mode.effective m.bus m.cpu.regs = some addr ∧ m.step.2.bus = m.bus ∧
      m.step.2.cpu.regs =
        (m.cpu.regs.combine i.mnemonic (m.bus.read addr)).setPc (m.cpu.behind i) ∧
      ((∀ o ∈ m.observers, Observer.NeverFaults o) → m.step.1 = .ok ()) :=
  step_of_effect hp hd (Mnemonic.effect_of_combining hi)

/-- `SBC ($FE,X)`, whose pointer lies on two pages, and a difference that overflows. -/
def subtracting : Machine Memory Empty where
  cpu := { regs := { a := 0x50, x := 0x01, pc := 0x8000, flags := { carry := true } } }
  bus := ((Memory.zero.store 0x8000 [0xE1, 0xFE]).store 0x00FF [0x34, 0x12]).write 0x1234 0xB0

theorem subtracting_combines : subtracting.step.1 = .ok () ∧
    subtracting.step.2.cpu.regs =
      { subtracting.cpu.regs with
        a := 0xA0
        pc := 0x8002
        flags := { carry := false, overflow := true, negative := true, zero := false } } := by
  have decoded : Instruction.decode (subtracting.bus.read subtracting.cpu.regs.pc) =
      some ⟨0xE1, .SBC, .indirectX⟩ := rfl
  obtain ⟨addr, found, -, regs, completes⟩ := operands_are_combined rfl decoded (by decide)
  obtain rfl : 0x1234 = addr := Option.some.inj found
  exact ⟨completes nofun, regs⟩

end Machine

end Mos6502
