import Mos6502.Proofs.OperandArithmetic

namespace Mos6502

def Mode.operand (mem : Memory) (r : Registers) (mode : Mode) : Option Byte :=
  (mode.effective mem r).map mem.read

namespace Mnemonic

def compared : Mnemonic → Option Reg
  | .CMP => some .a
  | .CPX => some .x
  | .CPY => some .y
  | _ => none

/-- Whether a branch is to be taken behind a comparison of `r` with `v`. -/
def asks (mnemonic : Mnemonic) (r v : Byte) : Option Bool :=
  match mnemonic with
  | .BCS => some (decide (v.toNat ≤ r.toNat))
  | .BCC => some (decide (r.toNat < v.toNat))
  | .BEQ => some (decide (r.toNat = v.toNat))
  | .BNE => some (decide (r.toNat ≠ v.toNat))
  | _ => none

theorem operation_of_compared {mnemonic : Mnemonic} {reg : Reg}
    (h : mnemonic.compared = some reg) : mnemonic.operation = .compare reg := by
  cases mnemonic with
  | CMP | CPX | CPY =>
    cases h
    rfl
  | _ => cases h

theorem operation_of_condition {mnemonic : Mnemonic} {flag : Flag} {value : Bool}
    (h : mnemonic.condition = some (flag, value)) : mnemonic.operation = .branch flag value := by
  cases mnemonic with
  | BCC | BCS | BNE | BEQ | BPL | BMI | BVC | BVS =>
    cases h
    rfl
  | _ => cases h

end Mnemonic

def Flags.ofDifference (f : Flags) (r v : Byte) : Flags :=
  { f with
    carry := decide (v.toNat ≤ r.toNat)
    zero := decide (r.toNat = v.toNat)
    negative := decide (128 ≤ (r - v).toNat) }

theorem difference_eq_zero (r v : Byte) : (r - v == 0) = decide (r.toNat = v.toNat) := by
  have hr := r.toNat_lt
  have hv := v.toNat_lt
  have difference : (r - v).toNat = (256 - v.toNat + r.toNat) % 256 := UInt8.toNat_sub r v
  have zero : r - v = 0 ↔ r.toNat = v.toNat := by
    rw [← UInt8.toNat_inj, difference]
    show _ = 0 ↔ _
    omega
  rw [← decide_eq_decide.2 zero]
  exact beq_eq_decide ..

namespace Registers

/-- The registers behind a branch, which is taken by the signed byte behind its opcode. -/
def branch (r : Registers) (mem : Memory) (taken : Bool) : Registers :=
  r.setPc (if taken then displace (r.pc + 2) (mem.read (r.pc + 1)) else r.pc + 2)

variable (r : Registers) (v : Byte)

theorem compare_eq (reg : Reg) :
    r.compare reg v = r.setFlags (r.flags.ofDifference (r.get reg) v) := by
  unfold compare describe setCarry Flags.describe Flags.ofDifference
  rw [difference_eq_zero]
  rfl

theorem flags_subtract (hc : r.flags.carry = true) : (r.subtract v).flags =
    (r.flags.ofDifference r.a v).set .overflow
      (decide (signed r.a - signed v < -128 ∨ 127 < signed r.a - signed v)) := by
  have hv := v.toNat_lt
  have borrow : (1 : Int) - r.flags.carry.toNat = 0 := by
    rw [hc]
    rfl
  have result : UInt8.ofInt (r.a.toNat - v.toNat) = r.a - v := by
    apply UInt8.toNat_inj.1
    rw [UInt8.ofInt, UInt8.toNat_ofNat', UInt8.toNat_sub]
    omega
  have carry : (0 : Int) ≤ r.a.toNat - v.toNat ↔ v.toNat ≤ r.a.toNat := by omega
  rw [subtract_eq, borrow]
  simp only [Int.sub_zero, result, carry]
  rw [flags_load]
  unfold Flags.describe Flags.ofDifference
  rw [difference_eq_zero]
  rfl

end Registers

/-- Where a signed difference leaves the range of a byte, its sign is the wrong one. -/
theorem signed_lt_iff (a v : Byte) :
    decide (128 ≤ (a - v).toNat) ≠
        decide (signed a - signed v < -128 ∨ 127 < signed a - signed v) ↔
      signed a < signed v := by
  have ha := a.toNat_lt
  have hv := v.toNat_lt
  have difference : (a - v).toNat = (256 - v.toNat + a.toNat) % 256 := UInt8.toNat_sub a v
  rw [ne_eq, decide_eq_decide]
  unfold signed
  split <;> split <;> omega

theorem Mnemonic.condition_of_asks {mnemonic : Mnemonic} {r v : Byte} {taken : Bool}
    (h : mnemonic.asks r v = some taken) : ∃ flag value,
      mnemonic.condition = some (flag, value) ∧
        ∀ f : Flags, (f.ofDifference r v).get flag = value ↔ taken = true := by
  cases mnemonic with
  | BCS | BEQ =>
    cases h
    exact ⟨_, _, rfl, fun _ => Iff.rfl⟩
  | BCC | BNE =>
    cases h
    refine ⟨_, _, rfl, fun _ => ?_⟩
    simp [Flags.ofDifference, Flags.get]
  | _ => cases h

namespace Machine

section Steps

variable {ω : Type} [Observer ω] (m : Machine Memory ω) (i : Instruction)

/-- A step leaves the registers `r` and the memory as it was. -/
structure Leaves (r : Registers) : Prop where
  memory : m.step.2.bus = m.bus
  registers : m.step.2.cpu.regs = r
  completes : (∀ o ∈ m.observers, Observer.NeverFaults o) → m.step.1 = .ok ()

/-- Nothing is latched, and the next instruction subtracts without a borrow. -/
structure Subtracts : Prop extends Ready m i where
  mnemonic : i.mnemonic = .SBC
  carry : m.cpu.regs.flags.carry = true

variable {m i}

theorem Ready.compares (h : m.Ready i) {reg : Reg} (hr : i.mnemonic.compared = some reg) :
    ∃ v, i.mode.operand m.bus m.cpu.regs = some v ∧
      m.Leaves ((m.cpu.regs.setFlags (m.cpu.regs.flags.ofDifference (m.cpu.regs.get reg) v)).setPc
        (m.cpu.behind i)) := by
  have effect : i.mnemonic.operation.effect = some fun v r => r.compare reg v := by
    rw [Mnemonic.operation_of_compared hr]
    rfl
  obtain ⟨addr, found, bus, regs, completes⟩ := step_of_effect h.pending h.decoded effect
  refine ⟨m.bus.read addr, ?_, bus, ?_, completes⟩
  · rw [Mode.operand, found]
    rfl
  · rw [regs, Registers.compare_eq]

theorem Ready.free_of_compared (h : m.Ready i) {reg : Reg} (hr : i.mnemonic.compared = some reg) :
    m.step.2.cpu.pending = none ∧ m.step.2.cpu.holdPc = false := by
  have comparison := Mnemonic.operation_of_compared hr
  obtain ⟨work, c, -, -, cpu, pending, -⟩ :=
    h.step (by rw [comparison]; exact nofun) (by rw [comparison]; exact nofun)
  refine ⟨pending, ?_⟩
  rw [cpu]
  exact Cpu.holdPc_complete c i

theorem Subtracts.flags (h : m.Subtracts i) : ∃ v, i.mode.operand m.bus m.cpu.regs = some v ∧
    m.step.2.cpu.regs.flags = (m.cpu.regs.flags.ofDifference m.cpu.regs.a v).set .overflow
      (decide (signed m.cpu.regs.a - signed v < -128 ∨ 127 < signed m.cpu.regs.a - signed v)) := by
  have effect : i.mnemonic.operation.effect = some fun v r => r.subtract v := by
    rw [h.mnemonic]
    rfl
  obtain ⟨addr, found, -, regs, -⟩ := step_of_effect h.pending h.decoded effect
  refine ⟨m.bus.read addr, ?_, ?_⟩
  · rw [Mode.operand, found]
    rfl
  · rw [regs, Registers.flags_setPc, Registers.flags_subtract _ _ h.carry]

theorem Ready.branches (h : m.Ready i) (hold : m.cpu.holdPc = false) {flag : Flag} {value : Bool}
    (hc : i.mnemonic.condition = some (flag, value)) :
    m.Leaves (m.cpu.regs.branch m.bus (decide (m.cpu.regs.flags.get flag = value))) := by
  have isBranch := Mnemonic.operation_of_condition hc
  have relative : i.mode = .relative :=
    Instruction.mode_of_condition h.decoded (by rw [hc]; rfl)
  obtain ⟨work, c, performs, worked, cpu, -, completes⟩ :=
    h.step (by rw [isBranch]; exact nofun) (by rw [isBranch]; exact nofun)
  rw [isBranch, relative] at performs
  cases performs with
  | branchTaken ht hf =>
    obtain rfl := Option.some.inj ht
    have taken : m.cpu.regs.flags.get flag = value := hf
    refine ⟨(Memory.answers_nil ..).1 worked, ?_, completes⟩
    rw [cpu, decide_eq_true taken]
    rfl
  | branchNotTaken hf =>
    have notTaken : m.cpu.regs.flags.get flag ≠ value := hf
    have behind : m.cpu.behind i = m.cpu.regs.pc + 2 := by
      unfold Cpu.behind Instruction.size
      rw [hold, relative]
      rfl
    refine ⟨(Memory.answers_nil ..).1 worked, ?_, completes⟩
    rw [cpu, decide_eq_false notTaken, Cpu.regs_complete]
    exact congrArg m.cpu.regs.setPc behind

end Steps

variable {ω ω' : Type} [Observer ω] [Observer ω']

/-- A comparison of a register that holds `r` with the byte `v` at the effective address changes nothing
but the program counter and three flags, and these are as subtracting `v` from an accumulator that holds
`r` leaves them, in any mode, without a borrow. A branch right behind it is taken just if the two
numbers are ordered as its mnemonic says. Behind a subtraction without a borrow negative and overflow
differ just if the first of the numbers is the smaller one as they have signs. -/
theorem comparisons_decide :
    (∀ {m : Machine Memory ω} {i : Instruction} {reg : Reg}, m.Ready i →
      i.mnemonic.compared = some reg → ∃ v, i.mode.operand m.bus m.cpu.regs = some v ∧
        let r := m.cpu.regs.get reg
        let m' := m.step.2
        m.Leaves ((m.cpu.regs.setFlags (m.cpu.regs.flags.ofDifference r v)).setPc
          (m.cpu.behind i)) ∧
        (∀ {n : Machine Memory ω'} {j : Instruction}, n.Subtracts j → n.cpu.regs.a = r →
          j.mode.operand n.bus n.cpu.regs = some v →
          let f := n.step.2.cpu.regs.flags
          m'.cpu.regs.flags.carry = f.carry ∧ m'.cpu.regs.flags.zero = f.zero ∧
            m'.cpu.regs.flags.negative = f.negative) ∧
        ∀ {b : Instruction} {taken : Bool},
          Instruction.decode (m'.bus.read m'.cpu.regs.pc) = some b →
          b.mnemonic.asks r v = some taken →
            m'.Leaves (m'.cpu.regs.branch m'.bus taken)) ∧
    ∀ {n : Machine Memory ω'} {j : Instruction}, n.Subtracts j →
      ∃ v, j.mode.operand n.bus n.cpu.regs = some v ∧
        let f := n.step.2.cpu.regs.flags
        (f.negative ≠ f.overflow ↔ signed n.cpu.regs.a < signed v) := by
  refine ⟨?_, ?_⟩
  · intro m i reg h hr
    obtain ⟨v, operand, compares⟩ := h.compares hr
    refine ⟨v, operand, compares, ?_, ?_⟩
    · intro n j subtracts same found
      obtain ⟨v', found', flags⟩ := subtracts.flags
      obtain rfl := Option.some.inj (found.symm.trans found')
      rw [compares.registers, flags, same]
      exact ⟨rfl, rfl, rfl⟩
    · intro b taken decoded asks
      obtain ⟨flag, value, condition, tells⟩ := Mnemonic.condition_of_asks asks
      obtain ⟨latch, hold⟩ := h.free_of_compared hr
      -- the comparison leaves nothing latched and no hold
      have next : m.step.2.Ready b := ⟨latch, decoded⟩
      have branches := next.branches hold condition
      have described : m.step.2.cpu.regs.flags =
          m.cpu.regs.flags.ofDifference (m.cpu.regs.get reg) v := by
        rw [compares.registers]
        rfl
      rw [described, Bool.decide_congr (tells _), Bool.decide_eq_true] at branches
      exact branches
  · intro n j subtracts
    obtain ⟨v, operand, flags⟩ := subtracts.flags
    refine ⟨v, operand, ?_⟩
    rw [flags]
    exact signed_lt_iff ..

/-- `CMP #$B0` and `BCC`, of the numbers that `subtracting` has. -/
def comparing : Machine Memory Empty where
  cpu := { regs := { a := 0x50, pc := 0x8000 } }
  bus := Memory.zero.store 0x8000 [0xC9, 0xB0, 0x90, 0x10]

theorem comparing_decides :
    comparing.step.2.cpu.regs.a = 0x50 ∧
    (let f := comparing.step.2.cpu.regs.flags
      let f' := subtracting.step.2.cpu.regs.flags
      f.carry = f'.carry ∧ f.zero = f'.zero ∧ f.negative = f'.negative) ∧
    comparing.step.2.step.2.cpu.regs.pc = 0x8014 ∧
    ¬ subtracting.step.2.cpu.regs.flags.negative ≠ subtracting.step.2.cpu.regs.flags.overflow := by
  obtain ⟨compare, subtract⟩ := @comparisons_decide Empty Empty _ _
  have ready : comparing.Ready ⟨0xC9, .CMP, .immediate⟩ := ⟨rfl, rfl⟩
  have subtracts : subtracting.Subtracts ⟨0xE1, .SBC, .indirectX⟩ := ⟨⟨rfl, rfl⟩, rfl, rfl⟩
  obtain ⟨v, operand, compares, agrees, follows⟩ := compare ready rfl
  obtain rfl : 0xB0 = v := Option.some.inj operand
  obtain ⟨v, operand', signs⟩ := subtract subtracts
  obtain rfl : 0xB0 = v := Option.some.inj operand'
  have branches := follows (b := ⟨0x90, .BCC, .relative⟩) rfl rfl
  refine ⟨?_, agrees subtracts rfl operand', ?_, ?_⟩
  · rw [compares.registers]
    rfl
  · rw [branches.registers, compares.registers]
    rfl
  · intro differ
    exact absurd (signs.1 differ) (by decide)

end Machine

end Mos6502
