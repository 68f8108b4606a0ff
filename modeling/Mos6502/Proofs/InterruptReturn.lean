import Mos6502.Proofs.StackFrame

namespace Mos6502

/-- No flag holds the interrupt off, and it saves what its handler needs to return. -/
def Interrupt.Unmaskable (kind : Interrupt) : Prop := kind = .nmi ∨ kind = .brk

/-- Interrupts that are all taken, one inside the other. Only the first can be an `irq`: handlers
begin with interrupts disabled. -/
def Interrupt.Nests (flags : Flags) : List Interrupt → Prop
  | [] => True
  | kind :: kinds =>
    (kind.Unmaskable ∨ kind = .irq ∧ flags.interruptDisable = false) ∧
      ∀ kind ∈ kinds, kind.Unmaskable

theorem Interrupt.nests_of_unmaskable (flags : Flags) {kinds : List Interrupt}
    (h : ∀ kind ∈ kinds, kind.Unmaskable) : Nests flags kinds := by
  cases kinds with
  | nil => trivial
  | cons kind kinds => exact ⟨.inl (h kind (by simp)), fun other ho => h other (by simp [ho])⟩

theorem Interrupt.highByte_vector (kind : Interrupt) :
    highByte kind.vector ≠ 1 ∧ highByte (kind.vector + 1) ≠ 1 := by
  cases kind <;> decide

namespace Memory

/-- The handler of `kind` returns at once, and does not lie on the stack. -/
structure Dismisses (mem : Memory) (kind : Interrupt) : Prop where
  opcode : mem.read (mem.readWord kind.vector) = 0x40
  outside : highByte (mem.readWord kind.vector) ≠ 1

variable {mem mem' : Memory} {sp : Byte} {n : Nat}

theorem SameBut.readWord_vector (h : mem.SameBut sp n mem') (kind : Interrupt) :
    mem'.readWord kind.vector = mem.readWord kind.vector := by
  rw [readWord, readWord, h.outside kind.highByte_vector.1, h.outside kind.highByte_vector.2]

theorem Dismisses.later {kind : Interrupt} (h : mem.Dismisses kind) (hs : mem.SameBut sp n mem') :
    mem'.Dismisses kind where
  opcode := by
    rw [hs.readWord_vector, hs.outside h.outside]
    exact h.opcode
  outside := by
    rw [hs.readWord_vector]
    exact h.outside

end Memory

namespace Cpu

theorem service_on_plain {c : Cpu} (mem : Memory) {kind : Interrupt}
    (hp : c.pending = some kind) (hs : kind.savesState = true) (hm : ¬ c.Masks kind) :
    let run := service.on c mem
    run.outcome = .ok () ∧
      run.state = (c.latch none).mapRegs (entered kind (mem.readWord kind.vector)) ∧
      mem.Pushed c.regs.sp
        [highByte c.regs.pc, lowByte c.regs.pc, c.regs.flags.toByte kind.breakBit] run.bus := by
  have completes : (service.on c mem).outcome = .ok () :=
    service_of_neverFaults c Memory.neverFaults
  obtain ⟨servicing, answered⟩ := (service_ensures c).on_ok completes
  generalize service.events c mem = es at servicing answered
  generalize hc : (service.on c mem).state = c₁ at servicing
  cases servicing with
  | idle none =>
    rw [hp] at none
    cases none
  | masked same masked =>
    rw [hp] at same
    cases same
    exact absurd masked hm
  | entered same _ lo hi =>
    rw [hp] at same
    cases same
    obtain ⟨rfl, rfl⟩ := Memory.holds.vector_of_entry answered.serves_noted
    simp only [Interrupt.entry, Interrupt.pushes, hs, if_true, List.map_cons, List.map_nil,
      List.cons_append, List.nil_append, Memory.answers_write, Memory.answers_read,
      Memory.answers_note, Memory.answers_nil] at answered
    obtain ⟨-, -, bus⟩ := answered
    refine ⟨completes, hc, ?_⟩
    rw [bus]
    apply (Memory.Pushed.two ..).push
    · simp
    · rfl

end Cpu

namespace Machine

/-- Requests are made one after the other, none of them dropped, and each is serviced at once. -/
inductive Interrupted {ω : Type} : List Interrupt → Machine Memory ω → Machine Memory ω → Prop
  | nil (m : Machine Memory ω) : Interrupted [] m m
  | cons {kind : Interrupt} {kinds : List Interrupt} {m m₁ m₂ m₃ : Machine Memory ω}
      (hr : m.performCpu (Cpu.request kind) = (.ok true, m₁))
      (hs : m₁.performCpu Cpu.service = (.ok (), m₂)) (rest : Interrupted kinds m₂ m₃) :
      Interrupted (kind :: kinds) m m₃

theorem Interrupted.append {ω : Type} {kinds kinds' : List Interrupt} {m m' m'' : Machine Memory ω}
    (h : Interrupted kinds m m') (h' : Interrupted kinds' m' m'') :
    Interrupted (kinds ++ kinds') m m'' := by
  induction h with
  | nil => exact h'
  | cons hr hs _ ih => exact .cons hr hs (ih h')

variable {ω : Type} [Observer ω] {m : Machine Memory ω}

theorem Idle.interrupt_saves (h : m.Idle) {kind : Interrupt} (hs : kind.savesState = true)
    (hm : ¬ m.cpu.Masks kind) :
    ∃ m', Interrupted [kind] m m' ∧
      m.Saves [highByte m.cpu.regs.pc, lowByte m.cpu.regs.pc,
        m.cpu.regs.flags.toByte kind.breakBit] m' ∧
      m'.cpu.regs = Cpu.entered kind (m.bus.readWord kind.vector) m.cpu.regs := by
  have latching : (Cpu.request kind).on m.cpu m.bus =
      ⟨.ok true, m.cpu.latch (some kind), m.bus, []⟩ := by
    simp [Cpu.request, h.pending]
  obtain ⟨m₁, requested, engine₁, bus₁⟩ := performCpu_of_ok (congrArg Ending.outcome latching)
  rw [latching] at engine₁
  replace bus₁ : m₁.bus = m.bus := bus₁.trans (congrArg Ending.bus latching)
  have cpu₁ : m₁.cpu = m.cpu.latch (some kind) := congrArg Engine.cpu engine₁
  obtain ⟨outcome, state, pushed⟩ :=
    Cpu.service_on_plain (c := m.cpu.latch (some kind)) m.bus rfl hs hm
  rw [← cpu₁, ← bus₁] at outcome
  obtain ⟨m₂, serviced, engine₂, bus₂⟩ := performCpu_of_ok outcome
  rw [cpu₁, bus₁] at engine₂ bus₂
  have cpu₂ : m₂.cpu = (m.cpu.latch none).mapRegs
      (Cpu.entered kind (m.bus.readWord kind.vector)) := (congrArg Engine.cpu engine₂).trans state
  have observers : m₂.observers = m.observers := by
    rw [engine₂]
    show m₁.observers = m.observers
    rw [engine₁]
  refine ⟨m₂, .cons requested serviced (.nil m₂), ⟨?_, ?_, ?_⟩, congrArg Cpu.regs cpu₂⟩
  · refine ⟨congrArg Cpu.pending cpu₂, (congrArg Cpu.holdPc cpu₂).trans h.holdPc, ?_⟩
    rw [observers]
    exact h.observers
  · rw [cpu₂]
    show (if kind.savesState then m.cpu.regs.sp - 3 else _) = _
    rw [if_pos hs]
    rfl
  · rw [bus₂]
    exact pushed

theorem Idle.interrupt_and_return (h : m.Idle) {kind : Interrupt} {kinds : List Interrupt} {k : Nat}
    {names : List Mnemonic} (hs : kind.savesState = true) (hm : ¬ m.cpu.Masks kind)
    (hd : m.bus.Dismisses kind) (hk : 3 + k ≤ 256)
    (enclosed : ∀ m₁ : Machine Memory ω, m₁.Idle → m.bus.SameBut m.cpu.regs.sp 3 m₁.bus →
      ∃ m₂ m₃, Interrupted kinds m₁ m₂ ∧ Executes names m₂ m₃ ∧
        m₁.Resumes m₁.cpu.regs.pc k m₃) :
    ∃ m₂ m₃, Interrupted (kind :: kinds) m m₂ ∧ Executes (names ++ [.RTI]) m₂ m₃ ∧
      m.Resumes m.cpu.regs.pc (3 + k) m₃ := by
  obtain ⟨m₁, interrupted, saves, regs₁⟩ := h.interrupt_saves hs hm
  obtain ⟨m₂, m₃, inner, executes, resumes⟩ := enclosed m₁ saves.idle saves.memory.sameBut
  have status : m₃.stacked 1 = m.cpu.regs.flags.toByte kind.breakBit :=
    saves.stacked resumes hk (j := 2) (Nat.lt_succ_self 2)
  have low : m₃.stacked 2 = lowByte m.cpu.regs.pc :=
    saves.stacked resumes hk (j := 1) (by simp)
  have high : m₃.stacked 3 = highByte m.cpu.regs.pc :=
    saves.stacked resumes hk (j := 0) (by simp)
  -- what was enclosed has left the handler alone, which lies below no byte of the stack
  have handling : m₃.bus.read m₃.cpu.regs.pc = 0x40 := by
    rw [resumes.regs, regs₁]
    show m₃.bus.read (m.bus.readWord kind.vector) = 0x40
    have same := saves.sameBut resumes
    rw [same.outside hd.outside]
    exact hd.opcode
  obtain ⟨m₄, returned, idle₄, bus₄, regs₄⟩ := resumes.idle.returnsFromInterrupt handling
  refine ⟨m₂, m₄, interrupted.append inner, executes.append returned, idle₄, ?_, ?_⟩
  · rw [regs₄, status, low, high, word_lowByte_highByte, Flags.ofByte_toByte, resumes.regs, regs₁]
    have up : (Cpu.entered kind (m.bus.readWord kind.vector) m.cpu.regs).sp + 3 =
        m.cpu.regs.sp := by
      simp only [Cpu.entered, hs, if_true]
      exact UInt8.sub_add_cancel _ _
    show Registers.setPc { m.cpu.regs with
      sp := (Cpu.entered kind (m.bus.readWord kind.vector) m.cpu.regs).sp + 3 } _ = _
    rw [up]
  · rw [bus₄]
    exact saves.sameBut resumes

theorem Idle.runs_interrupts {kinds : List Interrupt} (h : m.Idle) (hn : kinds.length ≤ 85)
    (hk : Interrupt.Nests m.cpu.regs.flags kinds) (hd : ∀ kind ∈ kinds, m.bus.Dismisses kind) :
    ∃ m₁ m₂, Interrupted kinds m m₁ ∧ Executes (List.replicate kinds.length .RTI) m₁ m₂ ∧
      m.Resumes m.cpu.regs.pc (3 * kinds.length) m₂ := by
  induction kinds generalizing m with
  | nil => exact ⟨m, m, .nil m, .nil m, .refl h⟩
  | cons kind kinds ih =>
    obtain ⟨outermost, inner⟩ := hk
    rw [List.length_cons] at hn
    have saves : kind.savesState = true := by
      rcases outermost with (rfl | rfl) | ⟨rfl, -⟩ <;> rfl
    have unmasked : ¬ m.cpu.Masks kind := by
      rintro ⟨rfl, masked⟩
      rcases outermost with (nmi | brk) | ⟨-, enabled⟩
      · cases nmi
      · cases brk
      · rw [masked] at enabled
        cases enabled
    have enclosed (m₁ : Machine Memory ω) (idle₁ : m₁.Idle)
        (same : m.bus.SameBut m.cpu.regs.sp 3 m₁.bus) :=
      ih idle₁ (Nat.le_of_succ_le hn) (Interrupt.nests_of_unmaskable m₁.cpu.regs.flags inner)
        fun other ho => (hd other (List.mem_cons_of_mem kind ho)).later same
    obtain ⟨m₁, m₂, interrupted, executes, resumes⟩ :=
      h.interrupt_and_return saves unmasked (hd kind List.mem_cons_self) (by omega) enclosed
    refine ⟨m₁, m₂, interrupted, ?_, ?_⟩
    · rw [List.length_cons, List.replicate_succ']
      exact executes
    · rw [List.length_cons, Nat.mul_succ, Nat.add_comm]
      exact resumes

/-- Interrupts taken one inside the other, as many as the stack has room for, are undone by as many
returns: only the cells that held what they saved have changed. -/
theorem returns_undo_interrupts {kinds : List Interrupt} (h : m.Idle) (hn : kinds.length ≤ 85)
    (hk : Interrupt.Nests m.cpu.regs.flags kinds) (hd : ∀ kind ∈ kinds, m.bus.Dismisses kind) :
    ∃ m₁ m₂, Interrupted kinds m m₁ ∧ Executes (List.replicate kinds.length .RTI) m₁ m₂ ∧
      m₂.Idle ∧ m₂.cpu.regs = m.cpu.regs ∧
      m.bus.SameBut m.cpu.regs.sp (3 * kinds.length) m₂.bus := by
  obtain ⟨m₁, m₂, interrupted, executes, resumes⟩ := h.runs_interrupts hn hk hd
  exact ⟨m₁, m₂, interrupted, executes, resumes.idle, resumes.regs, resumes.memory⟩

/-- Interrupts are enabled, the stack wraps, and both handlers return at once. -/
def interruptible : Machine Memory Empty where
  cpu := { regs := { a := 0x12, sp := 0x04, pc := 0xFFFF, flags := { negative := true } } }
  bus := ((Memory.zero.store 0xFFFA [0x00, 0x90, 0x00, 0x00, 0x00, 0xA0]).write 0x9000 0x40).write
    0xA000 0x40

theorem three_interrupts_undone :
    ∃ m₁ m₂, Interrupted [.irq, .nmi, .brk] interruptible m₁ ∧
      Executes [.RTI, .RTI, .RTI] m₁ m₂ ∧
      m₂.Idle ∧ m₂.cpu.regs = interruptible.cpu.regs ∧ interruptible.bus.SameBut 0x04 9 m₂.bus := by
  have idle : interruptible.Idle := ⟨rfl, rfl, by simp [interruptible]⟩
  have nests : Interrupt.Nests interruptible.cpu.regs.flags [.irq, .nmi, .brk] := by
    refine ⟨.inr ⟨rfl, rfl⟩, ?_⟩
    simp [Interrupt.Unmaskable]
  have dismissed : ∀ kind ∈ [.irq, .nmi, .brk], interruptible.bus.Dismisses kind := by
    intro kind hk
    have handled : kind = .irq ∨ kind = .nmi ∨ kind = .brk := by simpa using hk
    rcases handled with rfl | rfl | rfl
    · exact ⟨rfl, by decide⟩
    · exact ⟨rfl, by decide⟩
    · exact ⟨rfl, by decide⟩
  exact returns_undo_interrupts idle (by decide) nests dismissed

end Machine

end Mos6502
