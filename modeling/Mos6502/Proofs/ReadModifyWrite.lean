import Mos6502.Proofs.ProgramCounter

namespace Mos6502

namespace Mnemonic

/-- The instruction that does to a register what this one does to memory, and the register. -/
def registerForm : Mnemonic → Option (Mnemonic × Reg)
  | .ASL => some (.ASL, .a)
  | .LSR => some (.LSR, .a)
  | .ROL => some (.ROL, .a)
  | .ROR => some (.ROR, .a)
  | .INC => some (.INX, .x)
  | .DEC => some (.DEX, .x)
  | _ => none

/-- In integers: the byte `v` and the carry `c` become the byte `w` and the carry `c'`. -/
def Makes (mnemonic : Mnemonic) (v : Byte) (c : Bool) (w : Byte) (c' : Bool) : Prop :=
  match mnemonic with
  | .ASL => w.toNat + 256 * c'.toNat = 2 * v.toNat
  | .ROL => w.toNat + 256 * c'.toNat = 2 * v.toNat + c.toNat
  | .LSR => 2 * w.toNat + c'.toNat = v.toNat
  | .ROR => 2 * w.toNat + c'.toNat = v.toNat + 256 * c.toNat
  | .INC => w.toNat = (v.toNat + 1) % 256 ∧ c' = c
  | .DEC => w.toNat = (v.toNat + 255) % 256 ∧ c' = c
  | _ => False

end Mnemonic

section Integers

variable (v : Byte) (c : Bool)

theorem toNat_double : (UInt8.ofNat (2 * v.toNat + c.toNat)).toNat +
    256 * (decide (128 ≤ v.toNat)).toNat = 2 * v.toNat + c.toNat := by
  have hv := v.toNat_lt
  have hc := c.toNat_le
  rw [UInt8.toNat_ofNat']
  by_cases top : 128 ≤ v.toNat
  · rw [decide_eq_true top, Bool.toNat_true]
    omega
  · rw [decide_eq_false top, Bool.toNat_false]
    omega

theorem toNat_half : 2 * (UInt8.ofNat (v.toNat / 2 + 128 * c.toNat)).toNat +
    (v.toNat % 2 == 1).toNat = v.toNat + 256 * c.toNat := by
  have hv := v.toNat_lt
  have hc := c.toNat_le
  rw [UInt8.toNat_ofNat']
  rcases Nat.mod_two_eq_zero_or_one v.toNat with even | odd
  · have out : (v.toNat % 2 == 1).toNat = 0 := by rw [even]; rfl
    omega
  · have out : (v.toNat % 2 == 1).toNat = 1 := by rw [odd]; rfl
    omega

theorem bit_inj {c d : Bool} (h : c.toNat = d.toNat) : c = d := by
  cases c <;> cases d
  · rfl
  · cases h
  · cases h
  · rfl

end Integers

theorem Mnemonic.Makes.unique {mnemonic : Mnemonic} {v w w' : Byte} {c c' d d' : Bool}
    (h : mnemonic.Makes v c w d) (h' : mnemonic.Makes v c' w' d')
    (hc : mnemonic ∈ shifts → c' = c) : w' = w ∧ (mnemonic ∈ shifts → d' = d) := by
  have hw := w.toNat_lt
  have hw' := w'.toNat_lt
  have hd := d.toNat_le
  have hd' := d'.toNat_le
  cases mnemonic with
  | ASL | ROL | LSR | ROR =>
    obtain rfl : c' = c := hc (by decide)
    simp only [Makes] at h h'
    have byte : w'.toNat = w.toNat := by omega
    have carry : d'.toNat = d.toNat := by omega
    exact ⟨UInt8.toNat_inj.1 byte, fun _ => bit_inj carry⟩
  | INC | DEC =>
    have byte : w'.toNat = w.toNat := h'.1.trans h.1.symm
    exact ⟨UInt8.toNat_inj.1 byte, fun shift => absurd shift (by decide)⟩
  | _ => exact h.elim

namespace Operation

/-- What an operation puts in place of a byte in memory, and into the carry. -/
def inMemory : Operation → Option (Byte → Bool → Byte × Bool)
  | .shift s => some s.apply
  | .bumpMemory d => some fun v c => (v + d, c)
  | _ => none

def inRegister : Operation → Option (Reg × (Byte → Bool → Byte × Bool))
  | .shift s => some (.a, s.apply)
  | .bump reg d => some (reg, fun v c => (v + d, c))
  | _ => none

end Operation

/-- The two forms of an instruction compute one function, and it is the one of integer arithmetic. -/
theorem Mnemonic.forms_agree {mnemonic other : Mnemonic} {reg : Reg}
    (h : mnemonic.registerForm = some (other, reg)) : ∃ f,
      mnemonic.operation.inMemory = some f ∧ other.operation.inRegister = some (reg, f) ∧
        ∀ v c, mnemonic.Makes v c (f v c).1 (f v c).2 := by
  cases mnemonic with
  | ASL =>
    cases h
    refine ⟨_, rfl, rfl, fun v c => ?_⟩
    exact toNat_double v false
  | ROL =>
    cases h
    refine ⟨_, rfl, rfl, fun v c => ?_⟩
    exact toNat_double v c
  | LSR =>
    cases h
    refine ⟨_, rfl, rfl, fun v c => ?_⟩
    exact toNat_half v false
  | ROR =>
    cases h
    refine ⟨_, rfl, rfl, fun v c => ?_⟩
    exact toNat_half v c
  | INC | DEC =>
    cases h
    refine ⟨_, rfl, rfl, fun v c => ⟨?_, rfl⟩⟩
    exact UInt8.toNat_add v _
  | _ => cases h

namespace Cpu

variable {i : Instruction} {target : Option Addr} {c c' : Cpu} {op : Operation} {es : List Event}

theorem Performs.in_memory (h : Performs i target c op es c') (hm : i.mode ≠ .accumulator)
    {f : Byte → Bool → Byte × Bool} (hf : op.inMemory = some f) : ∃ addr v, target = some addr ∧
      let out := f v c.regs.flags.carry
      es = [.access ⟨.read, addr, v⟩, .access ⟨.write, addr, out.1⟩] ∧
        c' = c.mapRegs fun r => (r.setCarry out.2).describe out.1 := by
  cases h with
  | shiftAccumulator accumulator => exact absurd accumulator hm
  | shiftMemory _ ht | bumpMemory ht =>
    cases hf
    exact ⟨_, _, ht, rfl, rfl⟩
  | _ => cases hf

theorem Performs.in_register (h : Performs i target c op es c') (ht : target = none) {reg : Reg}
    {f : Byte → Bool → Byte × Bool} (hf : op.inRegister = some (reg, f)) :
    let out := f (c.regs.get reg) c.regs.flags.carry
    c' = c.mapRegs fun r => (r.setCarry out.2).load reg out.1 := by
  cases h with
  | shiftMemory _ found =>
    rw [ht] at found
    cases found
  | shiftAccumulator | bump =>
    cases hf
    rfl
  | _ => cases hf

end Cpu

namespace Machine

variable {ω : Type} [Observer ω] {m : Machine Memory ω} {i : Instruction}

/-- A step puts `w` at `addr`: zero and negative describe it, the carry is `carry`, and nothing else
changes but the program counter. -/
structure Rewrites (m : Machine Memory ω) (i : Instruction) (addr : Addr) (w : Byte)
    (carry : Bool) : Prop where
  memory (other : Addr) : m.step.2.bus.read other = if other = addr then w else m.bus.read other
  registers : m.step.2.cpu.regs = (m.cpu.regs.setFlags { m.cpu.regs.flags with
    carry, zero := decide (w = 0), negative := decide (128 ≤ w.toNat) }).setPc (m.cpu.behind i)
  completes : (∀ o ∈ m.observers, Observer.NeverFaults o) → m.step.1 = .ok ()

theorem Ready.rewrites (h : m.Ready i) (hm : i.mode ≠ .accumulator)
    {f : Byte → Bool → Byte × Bool} (hf : i.mnemonic.operation.inMemory = some f) :
    ∃ addr, i.mode.effective m.bus m.cpu.regs = some addr ∧
      let out := f (m.bus.read addr) m.cpu.regs.flags.carry
      m.Rewrites i addr out.1 out.2 := by
  obtain ⟨carried, notBrk⟩ := Operation.carried (g := Operation.inMemory) rfl rfl hf
  obtain ⟨work, c, performs, worked, cpu, -, completes⟩ := h.step carried notBrk
  obtain ⟨addr, v, found, rfl, rfl⟩ := performs.in_memory hm hf
  simp only [Memory.answers_read, Memory.answers_write, Memory.answers_nil] at worked
  obtain ⟨rfl, bus⟩ := worked
  refine ⟨addr, found, ?_, ?_, completes⟩
  · intro other
    rw [bus]
    exact Memory.read_write ..
  · rw [cpu, Cpu.regs_complete]
    rfl

theorem Ready.reloads (h : m.Ready i) (hm : i.mode.hasAddress = false) {reg : Reg}
    {f : Byte → Bool → Byte × Bool} (hf : i.mnemonic.operation.inRegister = some (reg, f)) :
    let out := f (m.cpu.regs.get reg) m.cpu.regs.flags.carry
    m.step.2.cpu.regs.get reg = out.1 ∧
      m.step.2.cpu.regs.flags = (m.cpu.regs.flags.set .carry out.2).describe out.1 := by
  obtain ⟨carried, notBrk⟩ := Operation.carried (g := Operation.inRegister) rfl rfl hf
  obtain ⟨work, c, performs, -, cpu, -⟩ := h.step carried notBrk
  have nowhere : i.mode.effective m.bus m.cpu.regs = none := by
    cases hi : i.mode <;> rw [hi] at hm <;> first | rfl | cases hm
  rw [cpu, performs.in_register nowhere hf]
  constructor
  · rw [Cpu.get_complete]
    exact (Registers.get_load ..).trans (if_pos rfl)
  · rw [Cpu.flags_complete]
    exact Registers.flags_load ..

/-- With nothing latched, an instruction that shifts a byte in memory, or counts it up or down, leaves
there what it makes of it in integer arithmetic, and nothing else changes but carry, zero, negative and
the program counter. Its counterpart for a register that holds the same byte leaves the same byte and
flags, if a shift begins with the same carry. -/
theorem memory_form_agrees {ω' : Type} [Observer ω'] (h : m.Ready i) (hm : i.mode ≠ .accumulator)
    {other : Mnemonic} {reg : Reg} (hr : i.mnemonic.registerForm = some (other, reg)) :
    ∃ addr w carry, i.mode.effective m.bus m.cpu.regs = some addr ∧
      i.mnemonic.Makes (m.bus.read addr) m.cpu.regs.flags.carry w carry ∧
      m.Rewrites i addr w carry ∧
      ∀ {n : Machine Memory ω'} {j : Instruction}, n.Ready j → j.mnemonic = other →
        j.mode.hasAddress = false → n.cpu.regs.get reg = m.bus.read addr →
        (i.mnemonic ∈ Mnemonic.shifts → n.cpu.regs.flags.carry = m.cpu.regs.flags.carry) →
        let r := n.step.2.cpu.regs
        r.get reg = w ∧ r.flags.zero = decide (w = 0) ∧ r.flags.negative = decide (128 ≤ w.toNat) ∧
          (i.mnemonic ∈ Mnemonic.shifts → r.flags.carry = carry) := by
  obtain ⟨f, inMemory, inRegister, makes⟩ := Mnemonic.forms_agree hr
  obtain ⟨addr, found, rewrites⟩ := h.rewrites hm inMemory
  refine ⟨addr, _, _, found, makes _ _, rewrites, ?_⟩
  rintro n j ready rfl hj same carries
  obtain ⟨byte, flags⟩ := ready.reloads hj inRegister
  -- both bytes follow the same law, from the same byte
  have law := makes (n.cpu.regs.get reg) n.cpu.regs.flags.carry
  rw [same] at law byte flags
  obtain ⟨agree, carry⟩ := (makes _ _).unique law carries
  rw [agree] at byte flags
  refine ⟨byte, ?_, ?_, fun shift => ?_⟩
  · rw [flags]
    rfl
  · rw [flags]
    rfl
  · rw [flags]
    exact carry shift

/-- `ROL $8002`, which rotates its own last byte. -/
def rotating : Machine Memory Empty where
  cpu := { regs := { a := 0x55, pc := 0x8000, flags := { carry := true } } }
  bus := Memory.zero.store 0x8000 [0x2E, 0x02, 0x80]

def rotatingA : Machine Memory Empty where
  cpu := { regs := { a := 0x80, pc := 0x8000, flags := { carry := true } } }
  bus := Memory.zero.write 0x8000 0x2A

theorem rotating_agrees : rotating.step.2.bus.read 0x8002 = 0x01 ∧
    rotatingA.step.2.cpu.regs.a = rotating.step.2.bus.read 0x8002 ∧
    rotatingA.step.2.cpu.regs.flags.carry = rotating.step.2.cpu.regs.flags.carry ∧
    rotating.step.2.cpu.regs.a = 0x55 := by
  have inMemory : rotating.Ready ⟨0x2E, .ROL, .absolute⟩ := ⟨rfl, rfl⟩
  have inRegister : rotatingA.Ready ⟨0x2A, .ROL, .accumulator⟩ := ⟨rfl, rfl⟩
  obtain ⟨addr, w, carry, found, makes, rewrites, agrees⟩ :=
    @memory_form_agrees Empty _ rotating _ Empty _ inMemory (by decide) _ _ rfl
  obtain rfl : 0x8002 = addr := Option.some.inj found
  obtain ⟨byte, -, -, out⟩ := agrees inRegister rfl rfl rfl fun _ => rfl
  have left : rotating.step.2.bus.read 0x8002 = w := rewrites.memory 0x8002
  have law : w.toNat + 256 * carry.toNat = 257 := makes
  have one : w.toNat = 1 := by
    have hw := w.toNat_lt
    omega
  refine ⟨left.trans (UInt8.toNat_inj.1 one), byte.trans left.symm, ?_, ?_⟩
  · rw [rewrites.registers]
    exact out (by decide)
  · rw [rewrites.registers]
    rfl

end Machine

end Mos6502
