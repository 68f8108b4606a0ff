import Mos6502.Bus.Wired
import Mos6502.Proofs.InterruptNesting
import Mos6502.Proofs.Progress

namespace Mos6502

def Flag.describesResult : Flag → Bool
  | .negative | .zero => true
  | _ => false

namespace Flags

theorem get_describe (f : Flags) (v : Byte) {flag : Flag} (h : flag.describesResult = false) :
    (f.describe v).get flag = f.get flag := by
  cases flag with
  | negative | zero => cases h
  | _ => rfl

def Exclusive (f : Flags) : Prop := ¬ (f.negative = true ∧ f.zero = true)

theorem exclusive_describe (f : Flags) (v : Byte) : (f.describe v).Exclusive := by
  rintro ⟨negative, zero⟩
  have big : 128 ≤ v.toNat := of_decide_eq_true negative
  have none : v = 0 := beq_iff_eq.1 zero
  rw [none] at big
  exact absurd big (by decide)

theorem exclusive_set {f : Flags} (h : f.Exclusive) {flag : Flag} (value : Bool)
    (hf : flag.describesResult = false) : (f.set flag value).Exclusive := by
  cases flag with
  | negative | zero => cases hf
  | _ => exact h

theorem exclusive_ofByte (p : Byte) :
    (ofByte p).Exclusive ↔ ¬ (p.toNat.testBit 7 = true ∧ p.toNat.testBit 1 = true) := by
  simp [Exclusive, ofByte, Nat.testBit_eq_decide_div_mod_eq]

end Flags

namespace Registers

variable (r : Registers)

@[simp] theorem flags_describe (v : Byte) : (r.describe v).flags = r.flags.describe v := rfl

@[simp] theorem flags_load (reg : Reg) (v : Byte) :
    (r.load reg v).flags = r.flags.describe v := by
  simp [load]

@[simp] theorem flags_setCarry (carry : Bool) :
    (r.setCarry carry).flags = r.flags.set .carry carry := rfl

@[simp] theorem get_describe (v : Byte) (reg : Reg) : (r.describe v).get reg = r.get reg := by
  simp [describe]

@[simp] theorem get_setCarry (carry : Bool) (reg : Reg) :
    (r.setCarry carry).get reg = r.get reg := by
  simp [setCarry]

theorem get_load (reg other : Reg) (v : Byte) :
    (r.load reg v).get other = if other = reg then v else r.get other := by
  simp [load, get_set]

/-- Besides the accumulator and what describes it, an addition sets carry and overflow. -/
theorem add_eq (m : Byte) : ∃ carry overflow v,
    r.add m = (r.setFlags ((r.flags.set .carry carry).set .overflow overflow)).load .a v := by
  let sum := r.a.toNat + m.toNat + r.flags.carry.toNat
  let signedSum := signed r.a + signed m + r.flags.carry.toNat
  exact ⟨decide (256 ≤ sum), decide (signedSum < -128 ∨ 127 < signedSum), UInt8.ofNat sum, rfl⟩

theorem transfer_eq {source target : Reg} (h : target ≠ .sp) :
    r.transfer source target = r.load target (r.get source) := if_neg h

theorem get_transfer (source target reg : Reg) : (r.transfer source target).get reg =
    if reg = target then r.get source else r.get reg := by
  unfold transfer
  split
  · rename_i to_sp
    rw [to_sp, get_set]
  · rw [get_load]

end Registers

namespace Operation

def writesFlag : Operation → Flag → Bool
  | .load _, flag | .logic _, flag | .bumpMemory _, flag | .bump _ _, flag => flag.describesResult
  | .transfer _ target, flag => target != .sp && flag.describesResult
  | .add, flag | .subtract, flag => flag.describesResult || flag == .carry || flag == .overflow
  | .compare _, flag | .shift _, flag => flag.describesResult || flag == .carry
  | .setFlag other _, flag => flag == other
  | .returnFromInterrupt, _ => true
  | _, _ => false

/-- Whether an operation can change a register, in an instruction of a given mode. -/
def writesReg (mode : Mode) : Operation → Reg → Bool
  | .load target, reg | .bump target _, reg | .transfer _ target, reg => reg == target
  | .add, reg | .subtract, reg | .logic _, reg => reg == .a
  | .shift _, reg => mode == .accumulator && reg == .a
  | .call, reg | .ret, reg | .returnFromInterrupt, reg => reg == .sp
  | _, _ => false

end Operation

/-- The instructions that can change a flag. -/
def Flag.writers : Flag → List Mnemonic
  | .negative | .zero =>
    [.LDA, .LDX, .LDY, .ADC, .SBC, .AND, .ORA, .EOR, .CMP, .CPX, .CPY, .ASL, .LSR, .ROL, .ROR,
      .INC, .DEC, .INX, .INY, .DEX, .DEY, .TAX, .TAY, .TSX, .TXA, .TYA, .RTI]
  | .overflow => [.ADC, .SBC, .CLV, .RTI]
  | .decimal => [.SED, .CLD, .RTI]
  | .interruptDisable => [.CLI, .SEI, .RTI]
  | .carry =>
    [.ADC, .SBC, .CMP, .CPX, .CPY, .ASL, .LSR, .ROL, .ROR, .CLC, .SEC, .RTI]

def Reg.writers : Reg → List Mnemonic
  | .a => [.LDA, .ADC, .SBC, .AND, .ORA, .EOR, .TXA, .TYA]
  | .x => [.LDX, .TAX, .TSX, .INX, .DEX]
  | .y => [.LDY, .TAY, .INY, .DEY]
  | .sp => [.TXS, .JSR, .RTS, .RTI]

def Mnemonic.shifts : List Mnemonic := [.ASL, .LSR, .ROL, .ROR]

def Instruction.Writes (i : Instruction) (reg : Reg) : Prop :=
  i.mnemonic ∈ reg.writers ∨
    reg = .a ∧ i.mnemonic ∈ Mnemonic.shifts ∧ i.mode = .accumulator

theorem Flag.mem_writers (flag : Flag) (mnemonic : Mnemonic) :
    mnemonic ∈ flag.writers ↔ mnemonic.operation.writesFlag flag = true := by
  have table : ∀ m ∈ Mnemonic.all, m ∈ flag.writers ↔ m.operation.writesFlag flag = true := by
    cases flag <;> decide +kernel
  exact table mnemonic mnemonic.mem_all

theorem Instruction.writes_iff (i : Instruction) (reg : Reg) :
    i.Writes reg ↔ i.mnemonic.operation.writesReg i.mode reg = true := by
  have table : ∀ m ∈ Mnemonic.all, ∀ mode ∈ Mode.all,
      (m ∈ reg.writers ∨ reg = .a ∧ m ∈ Mnemonic.shifts ∧ mode = .accumulator) ↔
        m.operation.writesReg mode reg = true := by
    cases reg <;> decide +kernel
  have listed : i.mode ∈ Mode.all := by
    cases i.mode <;> decide
  exact table i.mnemonic i.mnemonic.mem_all i.mode listed

theorem Mnemonic.describesResult_of_setFlag {mnemonic : Mnemonic} {flag : Flag} {value : Bool}
    (h : mnemonic.operation = .setFlag flag value) : flag.describesResult = false := by
  cases mnemonic <;> cases h <;> rfl

def Entry.WritesFlag (flag : Flag) : Entry → Prop
  | .completed i => i.mnemonic ∈ flag.writers
  | .serviced _ => flag = .interruptDisable
  | _ => False

def Entry.WritesReg (reg : Reg) : Entry → Prop
  | .completed i => i.Writes reg
  | .serviced kind => reg = .sp ∧ kind ≠ .reset
  | _ => False

namespace Cpu

section Performs

variable {i : Instruction} {target : Option Addr} {c c' : Cpu} {op : Operation} {es : List Event}

/-- One case for each way to change a flag. -/
theorem Performs.keeps_flag (h : Performs i target c op es c') {flag : Flag}
    (hw : op.writesFlag flag = false) : c'.regs.flags.get flag = c.regs.flags.get flag := by
  cases h with
  | load | logic | bumpMemory | bump =>
    simp only [mapRegs, Registers.flags_load, Registers.flags_describe]
    exact Flags.get_describe _ _ hw
  | transfer source target =>
    by_cases to_sp : target = .sp
    · rw [to_sp]
      rfl
    · have both : (target != .sp && flag.describesResult) = false := hw
      have result : flag.describesResult = false := by simpa [to_sp] using both
      simp only [mapRegs, Registers.transfer_eq _ to_sp, Registers.flags_load]
      exact Flags.get_describe _ _ result
  -- the sum sets four flags one behind the other
  | add ht m | subtract ht m =>
    have all : (flag.describesResult || flag == .carry || flag == .overflow) = false := hw
    obtain ⟨⟨result, carry⟩, overflow⟩ : (flag.describesResult = false ∧ flag ≠ .carry) ∧
        flag ≠ .overflow := by simpa using all
    simp only [mapRegs, Registers.subtract]
    obtain ⟨_, _, _, sum⟩ := Registers.add_eq c.regs _
    rw [sum, Registers.flags_load, Flags.get_describe _ _ result, Registers.flags_setFlags,
      Flags.get_set, if_neg overflow, Flags.get_set, if_neg carry]
  | compare | shiftAccumulator | shiftMemory =>
    have all : (flag.describesResult || flag == .carry) = false := hw
    obtain ⟨result, carry⟩ : flag.describesResult = false ∧ flag ≠ .carry := by simpa using all
    simp only [mapRegs, Registers.compare, Registers.flags_load, Registers.flags_describe,
      Registers.flags_setCarry, Flags.get_describe _ _ result, Flags.get_set, if_neg carry]
  | setFlag other value =>
    have kept : flag ≠ other := ne_of_beq_false hw
    simp only [mapRegs, Registers.flags_setFlags, Flags.get_set, if_neg kept]
  | returnFromInterrupt => cases hw
  | _ => rfl

theorem Performs.keeps_reg (h : Performs i target c op es c') {reg : Reg}
    (hw : op.writesReg i.mode reg = false) : c'.regs.get reg = c.regs.get reg := by
  cases h with
  | load | bump | logic =>
    have kept : reg ≠ _ := ne_of_beq_false hw
    simp only [mapRegs, Registers.get_load, if_neg kept]
  | transfer =>
    have kept : reg ≠ _ := ne_of_beq_false hw
    simp only [mapRegs, Registers.get_transfer, if_neg kept]
  | add ht m | subtract ht m =>
    have kept : reg ≠ .a := ne_of_beq_false hw
    simp only [mapRegs, Registers.subtract]
    obtain ⟨_, _, _, sum⟩ := Registers.add_eq c.regs _
    rw [sum, Registers.get_load, if_neg kept, Registers.get_setFlags]
  | shiftAccumulator hm s =>
    have kept : reg ≠ .a := by simpa [Operation.writesReg, hm] using hw
    simp only [mapRegs, Registers.get_load, if_neg kept, Registers.get_setCarry]
  | compare | shiftMemory | bumpMemory =>
    simp [mapRegs, Registers.compare]
  | call | ret | returnFromInterrupt =>
    have kept : reg ≠ .sp := ne_of_beq_false hw
    simp [goTo, setFlags, setSp, mapRegs, Registers.get_set, kept]
  | branchTaken | jump => simp [goTo]
  | setFlag => simp [mapRegs]
  | _ => rfl

/-- A result is one byte, so that only a return from interrupt can set both flags. -/
theorem Performs.exclusive (h : Performs i target c op es c') (hr : op ≠ .returnFromInterrupt)
    (hs : ∀ flag value, op = .setFlag flag value → flag.describesResult = false)
    (hc : c.regs.flags.Exclusive) : c'.regs.flags.Exclusive := by
  have described (r : Registers) (v : Byte) : (r.describe v).flags.Exclusive :=
    Flags.exclusive_describe r.flags v
  cases h with
  | load | logic | bump | add | subtract | shiftAccumulator => exact described _ _
  | compare | shiftMemory | bumpMemory => exact described _ _
  | transfer source target =>
    by_cases to_sp : target = .sp
    · rw [to_sp]
      exact hc
    · simp only [mapRegs, Registers.transfer_eq _ to_sp]
      exact described _ _
  | setFlag flag value => exact Flags.exclusive_set hc value (hs flag value rfl)
  | returnFromInterrupt => exact absurd rfl hr
  | _ => exact hc

end Performs

section Course

variable {c c' : Cpu} {es : List Event} {view : View}

@[simp] theorem get_complete (c : Cpu) (i : Instruction) (reg : Reg) :
    (c.complete i).regs.get reg = c.regs.get reg := by
  unfold complete advance mapRegs
  split
  · rfl
  · exact Registers.get_setPc ..

theorem Course.keeps_flag (h : Course c es (.done c' view)) {flag : Flag}
    (hw : view.instruction.mnemonic ∉ flag.writers) :
    c'.regs.flags.get flag = c.regs.flags.get flag := by
  cases h with
  | completed _ _ hp =>
    rw [Flag.mem_writers, Bool.not_eq_true] at hw
    rw [flags_complete]
    exact hp.keeps_flag hw

theorem Course.keeps_reg (h : Course c es (.done c' view)) {reg : Reg}
    (hw : ¬ view.instruction.Writes reg) : c'.regs.get reg = c.regs.get reg := by
  cases h with
  | completed _ _ hp =>
    rw [Instruction.writes_iff, Bool.not_eq_true] at hw
    rw [get_complete]
    exact hp.keeps_reg hw

/-- The accesses of an `RTI` begun in `c` that pulls the status byte `p`. -/
def pulling (c : Cpu) (p lo hi : Byte) : List Access :=
  [⟨.read, c.regs.pc, 0x40⟩, ⟨.read, stackAddr (c.regs.sp + 1), p⟩,
    ⟨.read, stackAddr (c.regs.sp + 2), lo⟩, ⟨.read, stackAddr (c.regs.sp + 3), hi⟩]

theorem Course.exclusive (h : Course c es (.done c' view)) (hc : c.regs.flags.Exclusive) :
    c'.regs.flags.Exclusive ∨ ∃ p lo hi, accesses es = c.pulling p lo hi ∧
      ¬ (Flags.ofByte p).Exclusive := by
  cases h with
  | @completed opcode i hd as target hl fs c₁ hp =>
    rw [flags_complete]
    by_cases hr : i.mnemonic.operation = Mnemonic.RTI.operation
    · obtain rfl := Instruction.eq_of_rti hd ((Mnemonic.operation_eq_iff .RTI rfl).1 hr)
      obtain rfl := Instruction.opcode_of_decode hd
      obtain rfl := hl.nil_of_implicit rfl
      cases hp with
      | returnFromInterrupt p lo hi =>
        by_cases hx : (Flags.ofByte p).Exclusive
        · exact .inl hx
        · exact .inr ⟨p, lo, hi, rfl, hx⟩
    · exact .inl (hp.exclusive hr (fun _ _ => Mnemonic.describesResult_of_setFlag) hc)

end Course

section Settling

variable {c c' : Cpu}

theorem Servicing.entered_or_kept {es : List Event} (h : c.Servicing es (.done c' ())) :
    c'.regs = c.regs ∨ ∃ kind target, .serviced kind ∈ Entry.ofNotes (notes es) ∧
      c'.regs = Cpu.entered kind target c.regs := by
  cases h with
  | idle | masked => exact .inl rfl
  | @entered kind _ _ lo hi =>
    refine .inr ⟨kind, word lo hi, ?_, rfl⟩
    rw [notes_append, notes_map_access]
    exact List.mem_singleton_self _

variable {β : Type} [Bus β] {b : β}

theorem settle_entered_or_kept (h : (settle.on c b).outcome = .ok ()) :
    (settle.on c b).state.regs = c.regs ∨ ∃ kind target, .serviced kind ∈ c.settleEntries b ∧
      (settle.on c b).state.regs = entered kind target c.regs := by
  obtain ⟨line, b', ns, polled, run⟩ := settle_of_ok c h
  rw [run, Ending.outcome_after] at h
  rw [run, Ending.state_after]
  obtain ⟨es, servicing, -, record⟩ := servicing_of_ok h
  rcases servicing.entered_or_kept with kept | ⟨kind, target, member, entered⟩
  · exact .inl kept
  · refine .inr ⟨kind, target, ?_, entered⟩
    rw [settleEntries_of_poll polled, record]
    exact List.mem_append_right _ member

theorem flags_entered (kind : Interrupt) (target : Addr) (r : Registers) {flag : Flag}
    (h : flag ≠ .interruptDisable) :
    (entered kind target r).flags.get flag = r.flags.get flag := by
  unfold entered
  rw [Flags.get_set, if_neg h]

theorem get_entered (kind : Interrupt) (target : Addr) (r : Registers) {reg : Reg}
    (h : ¬ (reg = .sp ∧ kind ≠ .reset)) : (entered kind target r).get reg = r.get reg := by
  cases reg with
  | sp =>
    obtain rfl : kind = .reset := by simpa using h
    rfl
  | _ => rfl

end Settling

end Cpu

namespace Machine

variable {β ω : Type} [Bus β] [Observer ω]

/-- The instruction at the program counter is an `RTI` and pulls the status byte `p`. -/
def Pulls (m : Machine β ω) (p : Byte) : Prop :=
  ∃ lo hi, m.instructionAccesses = m.cpu.pulling p lo hi

/-- The parts of a step that completes: the instruction, which is on record, and what may be serviced
behind it. -/
theorem step_parts {m m' : Machine β ω} (h : m.step = (.ok (), m')) : ∃ c view es,
    m.cpu.Course es (.done c view) ∧ accesses es = m.instructionAccesses ∧
      .completed view.instruction ∈ m.entries ∧
      (m'.cpu.regs = c.regs ∨ ∃ kind target, .serviced kind ∈ m.entries ∧
        m'.cpu.regs = Cpu.entered kind target c.regs) := by
  obtain ⟨view, hi, ht, hs, he, -⟩ := step_eq_ok h
  refine ⟨m.instruct.state, view, _, (m.cpu.instruction_ensures.on_ok hi).1, rfl, ?_, ?_⟩
  · rw [entries_of_ok hi ht]
    exact List.mem_append_left _ (Entry.completed_mem_ofInstruction _ _)
  · rw [he, entries_of_ok hi ht]
    rcases Cpu.settle_entered_or_kept hs with kept | ⟨kind, target, member, entered⟩
    · exact .inl kept
    · exact .inr ⟨kind, target, List.mem_append_right _ member, entered⟩

section Step

variable {m m' : Machine β ω} (h : m.step = (.ok (), m'))

include h

theorem step_keeps_flag {flag : Flag} (hw : ∀ e ∈ m.entries, ¬ e.WritesFlag flag) :
    m'.cpu.regs.flags.get flag = m.cpu.regs.flags.get flag := by
  obtain ⟨c, view, es, course, -, completed, settled⟩ := step_parts h
  rw [← course.keeps_flag (hw _ completed)]
  rcases settled with kept | ⟨kind, target, serviced, entered⟩
  · rw [kept]
  · rw [entered]
    exact Cpu.flags_entered kind target c.regs (hw _ serviced)

theorem step_keeps_reg {reg : Reg} (hw : ∀ e ∈ m.entries, ¬ e.WritesReg reg) :
    m'.cpu.regs.get reg = m.cpu.regs.get reg := by
  obtain ⟨c, view, es, course, -, completed, settled⟩ := step_parts h
  rw [← course.keeps_reg (hw _ completed)]
  rcases settled with kept | ⟨kind, target, serviced, entered⟩
  · rw [kept]
  · rw [entered]
    exact Cpu.get_entered kind target c.regs (hw _ serviced)

theorem step_exclusive (hx : m.cpu.regs.flags.Exclusive) : m'.cpu.regs.flags.Exclusive ∨
    ∃ p, m.Pulls p ∧ p.toNat.testBit 7 = true ∧ p.toNat.testBit 1 = true := by
  obtain ⟨c, view, es, course, made, -, settled⟩ := step_parts h
  rcases course.exclusive hx with exclusive | ⟨p, lo, hi, pulls, both⟩
  · left
    rcases settled with kept | ⟨kind, target, -, entered⟩
    · rwa [kept]
    · rw [entered]
      exact Flags.exclusive_set exclusive true rfl
  · rw [Flags.exclusive_ofByte, Classical.not_not] at both
    exact .inr ⟨p, ⟨lo, hi, made ▸ pulls⟩, both⟩

end Step

/-- `n` steps that complete, each from `before k` to `after k`. Between two of them a host does as it
likes, but leaves negative and zero alone. -/
structure Steps (n : Nat) (before after : Nat → Machine β ω) : Prop where
  step : ∀ k < n, (before k).step = (.ok (), after k)
  between : ∀ k, k + 1 < n →
    (before (k + 1)).cpu.regs.flags.negative = (after k).cpu.regs.flags.negative ∧
      (before (k + 1)).cpu.regs.flags.zero = (after k).cpu.regs.flags.zero

theorem Steps.exclusive {n : Nat} {before after : Nat → Machine β ω} (run : Steps n before after)
    (hx : (before 0).cpu.regs.flags.Exclusive) {k : Nat} (hk : k < n) :
    (after k).cpu.regs.flags.Exclusive ∨ ∃ j ≤ k, ∃ p, (before j).Pulls p ∧
      p.toNat.testBit 7 = true ∧ p.toNat.testBit 1 = true := by
  induction k with
  | zero =>
    refine (step_exclusive (run.step 0 hk) hx).imp_right fun pulled => ?_
    exact ⟨0, Nat.le_refl 0, pulled⟩
  | succ k ih =>
    rcases ih (Nat.lt_of_succ_lt hk) with exclusive | ⟨j, hj, pulled⟩
    · have begun : (before (k + 1)).cpu.regs.flags.Exclusive := by
        obtain ⟨negative, zero⟩ := run.between k hk
        unfold Flags.Exclusive
        rw [negative, zero]
        exact exclusive
      refine (step_exclusive (run.step (k + 1) hk) begun).imp_right fun pulled => ?_
      exact ⟨k + 1, Nat.le_refl _, pulled⟩
    · exact .inr ⟨j, Nat.le_succ_of_le hj, pulled⟩

/-- In a run of steps that complete, a flag or a register differs behind a step only if the instruction
is one of its writers, or an interrupt was serviced and it is one that servicing changes. Negative and
zero are not both set at any point behind the first, unless an `RTI` has pulled a status byte in which
they are. -/
theorem writes_are_designated {n : Nat} {before after : Nat → Machine β ω}
    (run : Steps n before after) :
    (∀ k < n,
      (∀ flag, (after k).cpu.regs.flags.get flag ≠ (before k).cpu.regs.flags.get flag →
        ∃ e ∈ (before k).entries, e.WritesFlag flag) ∧
      ∀ reg, (after k).cpu.regs.get reg ≠ (before k).cpu.regs.get reg →
        ∃ e ∈ (before k).entries, e.WritesReg reg) ∧
    ((before 0).cpu.regs.flags.Exclusive → ∀ k < n,
      (after k).cpu.regs.flags.Exclusive ∨ ∃ j ≤ k, ∃ p, (before j).Pulls p ∧
        p.toNat.testBit 7 = true ∧ p.toNat.testBit 1 = true) := by
  refine ⟨fun k hk => ⟨?_, ?_⟩, fun hx k hk => run.exclusive hx hk⟩
  · intro flag changed
    apply Classical.byContradiction
    intro none
    exact changed (step_keeps_flag (run.step k hk) fun e he writes => none ⟨e, he, writes⟩)
  · intro reg changed
    apply Classical.byContradiction
    intro none
    exact changed (step_keeps_reg (run.step k hk) fun e he writes => none ⟨e, he, writes⟩)

/-- `LDA #$80` with the line up, behind which an `irq` is serviced by a lone `RTI`. -/
def interrupting : Machine Wired Empty where
  cpu := { regs := { pc := 0x8000 } }
  bus :=
    { memory := ((Memory.zero.store 0x8000 [0xA9, 0x80, 0xAA]).write 0x9000 0x40).writeWord
        0xFFFE 0x9000
      line := true }

def tampered : Machine Wired Empty :=
  let m := interrupting.step.2
  { m with bus := { memory := m.bus.memory.write 0x01FB 0x82 } }

def tampering : Nat → Machine Wired Empty
  | 0 => interrupting
  | 1 => tampered
  | _ => tampered.step.2

theorem tampering_writes :
    Steps 3 tampering (fun k => (tampering k).step.2) ∧
    (∃ e ∈ interrupting.entries, e.WritesFlag .interruptDisable) ∧
    (∃ e ∈ tampered.entries, e.WritesReg .sp) ∧
    ∃ j ≤ 1, ∃ p, (tampering j).Pulls p ∧ p.toNat.testBit 7 = true ∧ p.toNat.testBit 1 = true := by
  have run : Steps 3 tampering (fun k => (tampering k).step.2) := by
    constructor
    · intro k hk
      match k, hk with
      | 0, _ | 1, _ | 2, _ => exact Prod.ext rfl rfl
    · intro k hk
      match k, hk with
      | 0, _ | 1, _ => exact ⟨rfl, rfl⟩
  obtain ⟨changes, exclusive⟩ := writes_are_designated run
  have both : ¬ (tampering 1).step.2.cpu.regs.flags.Exclusive := fun h => h ⟨rfl, rfl⟩
  have apart : interrupting.cpu.regs.flags.Exclusive := by
    rintro ⟨negative, -⟩
    cases negative
  refine ⟨run, ?_, ?_, (exclusive apart 1 (by decide)).resolve_left both⟩
  · exact (changes 0 (by decide)).1 .interruptDisable (fun same => nomatch same)
  · exact (changes 1 (by decide)).2 .sp (fun same => nomatch same)

end Machine

end Mos6502
