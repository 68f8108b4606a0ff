import Mos6502.Proofs.InterruptDecision
import Mos6502.Proofs.Unobserved

namespace Mos6502

namespace Memory

variable {mem mem' : Memory} {es : List Event} (addr : Addr) (v : Byte)

@[simp] theorem answers_nil : Answers mem [] mem' ↔ mem' = mem := by
  constructor
  · intro h
    cases h
    rfl
  · rintro rfl
    exact .nil mem'

@[simp] theorem answers_read :
    Answers mem (.access ⟨.read, addr, v⟩ :: es) mem' ↔ v = mem.read addr ∧ Answers mem es mem' := by
  constructor
  · intro h
    cases h with
    | read hr rest =>
      cases hr
      exact ⟨rfl, rest⟩
  · rintro ⟨rfl, rest⟩
    exact .read rfl rest

@[simp] theorem answers_write :
    Answers mem (.access ⟨.write, addr, v⟩ :: es) mem' ↔ Answers (mem.write addr v) es mem' := by
  constructor
  · intro h
    cases h with
    | write hw rest =>
      cases hw
      exact rest
  · intro rest
    exact .write rfl rest

@[simp] theorem answers_note (n : Note) :
    Answers mem (.note n :: es) mem' ↔ Answers mem es mem' := by
  constructor
  · intro h
    cases h with
    | note _ rest => exact rest
  · intro rest
    exact .note n rest

end Memory

namespace Cpu

theorem instruction_on_plain {c : Cpu} {mem : Memory} {i : Instruction}
    (hd : Instruction.decode (mem.read c.regs.pc) = some i) (hs : i.mnemonic.supported = true) :
    ∃ as target es c', i.mode.Lookup c.regs as target ∧
      Performs i target (c.begun (mem.read c.regs.pc) i) i.mnemonic.operation es c' ∧
      let run := instruction.on c mem
      Answers mem (as.map .access ++ es) run.bus ∧ run.state = c'.complete i ∧
        run.outcome = .ok ((c'.complete i).view i) := by
  cases ho : (instruction.on c mem).outcome with
  | error why =>
    -- memory refuses nothing, and the opcode is one that is carried out
    obtain ⟨course, answered⟩ := (instruction_ensures c).on_abort Memory.neverFaults ho
    generalize instruction.events c mem = fs at course answered
    generalize (instruction.on c mem).state = c₁ at course
    cases course with
    | undocumented hd' =>
      obtain ⟨rfl, -⟩ := (Memory.answers_read ..).1 answered
      rw [hd] at hd'
      cases hd'
    | unsupported hd' _ hop =>
      obtain ⟨rfl, -⟩ := (Memory.answers_read ..).1 answered
      obtain rfl : i = _ := Option.some.inj (hd.symm.trans hd')
      simp [Mnemonic.supported, hop] at hs
    | faltered _ _ hf => exact absurd rfl (hf.ne_abort why)
  | ok view =>
    obtain ⟨course, answered⟩ := (instruction_ensures c).on_ok ho
    generalize instruction.events c mem = fs at course answered
    generalize hc : (instruction.on c mem).state = c₁ at course
    cases course with
    | @completed opcode j hd' as target hl es c' hp =>
      obtain ⟨rfl, rest⟩ := (Memory.answers_read ..).1 answered
      obtain rfl : i = j := Option.some.inj (hd.symm.trans hd')
      rw [← List.append_assoc] at rest
      obtain ⟨mem', work, logged⟩ := rest.split
      have same := (Memory.answers_note ..).1 logged
      rw [Memory.answers_nil] at same
      subst same
      exact ⟨as, target, es, c', hl, hp, work, hc, ho⟩

theorem settle_of_idle {c : Cpu} (hp : c.pending = none) (mem : Memory) :
    settle.on c mem = ⟨.ok (), c, mem, []⟩ := by
  have polled : (Micro.poll : Micro Cpu Bool).on c mem = ⟨.ok false, c, mem, []⟩ := by
    rw [Micro.on_poll, Memory.bus_poll]
    rfl
  simp [settle, service, polled, hp]

@[simp] theorem holdPc_complete (c : Cpu) (i : Instruction) : (c.complete i).holdPc = false := by
  unfold complete advance
  cases hh : c.holdPc <;> simp [hh, mapRegs]

theorem regs_complete_goTo (c : Cpu) (target : Addr) (i : Instruction) :
    ((c.goTo target).complete i).regs = c.regs.setPc target := rfl

theorem lastByte_jsr (c : Cpu) : c.lastByte ⟨0x20, .JSR, .absolute⟩ = c.regs.pc + 2 := by
  have three : UInt16.ofNat (Instruction.mk 0x20 .JSR .absolute).size = 3 := rfl
  rw [lastByte, three]
  grind

end Cpu

namespace Machine

variable {ω : Type} [Observer ω] {m : Machine Memory ω}

/-- A machine between two instructions: nothing is latched, the program counter is not held, and no
observer will ever fault. -/
structure Idle (m : Machine Memory ω) : Prop where
  pending : m.cpu.pending = none
  holdPc : m.cpu.holdPc = false
  observers : ∀ o ∈ m.observers, Observer.NeverFaults o

/-- Single steps lead from `m` to `m'`: each completes, and the instructions are those named. -/
inductive Executes : List Mnemonic → Machine Memory ω → Machine Memory ω → Prop
  | nil (m : Machine Memory ω) : Executes [] m m
  | cons {i : Instruction} {names : List Mnemonic} {m m' m'' : Machine Memory ω}
      (hd : Instruction.decode (m.bus.read m.cpu.regs.pc) = some i) (hs : m.step = (.ok (), m'))
      (rest : Executes names m' m'') : Executes (i.mnemonic :: names) m m''

theorem Executes.append {names names' : List Mnemonic} {m m' m'' : Machine Memory ω}
    (h : Executes names m m') (h' : Executes names' m' m'') :
    Executes (names ++ names') m m'' := by
  induction h with
  | nil => exact h'
  | cons hd hs _ ih => exact .cons hd hs (ih h')

/-- An idle machine completes every instruction that is carried out, and is idle again unless it has
latched a request of its own. -/
theorem Idle.carries (h : m.Idle) {i : Instruction}
    (hd : Instruction.decode (m.bus.read m.cpu.regs.pc) = some i)
    (hs : i.mnemonic.supported = true) (hb : i.mnemonic ≠ .BRK) :
    ∃ as target es c m', i.mode.Lookup m.cpu.regs as target ∧
      Cpu.Performs i target (m.cpu.begun (m.bus.read m.cpu.regs.pc) i) i.mnemonic.operation es c ∧
      Executes [i.mnemonic] m m' ∧ m'.Idle ∧ m'.cpu = c.complete i ∧
      Answers m.bus (as.map .access ++ es) m'.bus := by
  obtain ⟨as, target, es, c, hl, hp, answered, state, outcome⟩ := Cpu.instruction_on_plain hd hs
  have unlatched : (c.complete i).pending = none := by
    have notBrk : i.mnemonic.operation ≠ .brk := fun op =>
      hb ((Mnemonic.operation_eq_iff .BRK rfl).1 op)
    rw [Cpu.pending_complete, hp.pending, if_neg notBrk, Cpu.pending_begun, h.pending]
    rfl
  have ran : m.instruct.outcome = .ok ((c.complete i).view i) := outcome
  have left : m.instruct.state = c.complete i := state
  have cycle : Cpu.cycle.on m.cpu m.bus =
      Ending.after m.instruct.notes ⟨.ok (), c.complete i, m.instruct.bus, []⟩ := by
    rw [cycle_on, Ending.andThen_of_ok ran, left, Cpu.settle_of_idle unlatched]
  obtain ⟨faultless, observers⟩ :=
    step_keeps Observer.keeps_neverFaults Memory.neverFaults h.observers
  obtain ⟨stepped, cpu, bus⟩ := step_eq_cycle Memory.quiet faultless
  rw [cycle] at stepped cpu bus
  have executes : Executes [i.mnemonic] m m.step.2 := .cons hd (Prod.ext stepped rfl) (.nil _)
  refine ⟨as, target, es, c, m.step.2, hl, hp, executes, ?_, cpu, ?_⟩
  · refine ⟨?_, ?_, observers⟩
    · rw [cpu]
      exact unlatched
    · rw [cpu]
      exact Cpu.holdPc_complete c i
  · rw [bus]
    exact answered

def stacked (k : Byte) (m : Machine Memory ω) : Byte :=
  m.bus.read (Cpu.stackAddr (m.cpu.regs.sp + k))

theorem Idle.returnsFromInterrupt (h : m.Idle) (hb : m.bus.read m.cpu.regs.pc = 0x40) :
    ∃ m', Executes [.RTI] m m' ∧ m'.Idle ∧ m'.bus = m.bus ∧
      m'.cpu.regs = ((m.cpu.regs.set .sp (m.cpu.regs.sp + 3)).setFlags
        (Flags.ofByte (m.stacked 1))).setPc (word (m.stacked 2) (m.stacked 3)) := by
  have hd : Instruction.decode (m.bus.read m.cpu.regs.pc) = some ⟨0x40, .RTI, .implicit⟩ := by
    rw [hb]
    rfl
  obtain ⟨as, target, es, c, m', hl, hp, executes, idle, cpu, answered⟩ :=
    h.carries hd rfl (by decide)
  change Cpu.Performs _ _ _ .returnFromInterrupt _ _ at hp
  cases hl
  cases hp with
  | returnFromInterrupt p lo hi =>
    simp only [List.map_nil, List.nil_append, Memory.answers_read, Memory.answers_nil] at answered
    obtain ⟨rfl, rfl, rfl, bus⟩ := answered
    refine ⟨m', executes, idle, bus, ?_⟩
    rw [cpu, Cpu.regs_complete_goTo]
    rfl

theorem Idle.returns (h : m.Idle) (hb : m.bus.read m.cpu.regs.pc = 0x60) :
    ∃ m', Executes [.RTS] m m' ∧ m'.Idle ∧ m'.bus = m.bus ∧
      m'.cpu.regs = (m.cpu.regs.set .sp (m.cpu.regs.sp + 2)).setPc
        (word (m.stacked 1) (m.stacked 2) + 1) := by
  have hd : Instruction.decode (m.bus.read m.cpu.regs.pc) = some ⟨0x60, .RTS, .implicit⟩ := by
    rw [hb]
    rfl
  obtain ⟨as, target, es, c, m', hl, hp, executes, idle, cpu, answered⟩ :=
    h.carries hd rfl (by decide)
  change Cpu.Performs _ _ _ .ret _ _ at hp
  cases hl
  cases hp with
  | ret lo hi =>
    simp only [List.map_nil, List.nil_append, Memory.answers_read, Memory.answers_nil] at answered
    obtain ⟨rfl, rfl, bus⟩ := answered
    refine ⟨m', executes, idle, bus, ?_⟩
    rw [cpu, Cpu.regs_complete_goTo]
    rfl

theorem Idle.calls (h : m.Idle) (hb : m.bus.read m.cpu.regs.pc = 0x20) :
    let r := m.cpu.regs
    ∃ m', Executes [.JSR] m m' ∧ m'.Idle ∧
      m'.bus = (m.bus.write (Cpu.stackAddr r.sp) (highByte (r.pc + 2))).write
        (Cpu.stackAddr (r.sp - 1)) (lowByte (r.pc + 2)) ∧
      m'.cpu.regs = (r.set .sp (r.sp - 2)).setPc (m.bus.readWord (r.pc + 1)) := by
  have hd : Instruction.decode (m.bus.read m.cpu.regs.pc) = some ⟨0x20, .JSR, .absolute⟩ := by
    rw [hb]
    rfl
  obtain ⟨as, target, es, c, m', hl, hp, executes, idle, cpu, answered⟩ :=
    h.carries hd rfl (by decide)
  change Cpu.Performs _ _ _ .call _ _ at hp
  cases hl with
  | absolute lo hi =>
    cases hp with
    | call ht =>
      cases ht
      simp only [List.map_cons, List.map_nil, List.cons_append, List.nil_append,
        Memory.answers_read, Memory.answers_write, Memory.answers_nil, Cpu.lastByte_jsr] at answered
      obtain ⟨rfl, rfl, bus⟩ := answered
      have next : m.cpu.regs.pc + 1 + 1 = m.cpu.regs.pc + 2 := by rw [UInt16.add_assoc]; rfl
      refine ⟨m', executes, idle, bus, ?_⟩
      rw [cpu, Cpu.regs_complete_goTo, Memory.readWord, next]
      rfl

end Machine

end Mos6502
