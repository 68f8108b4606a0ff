import Mos6502.Proofs.ProgramCounter

namespace Mos6502

namespace Cpu

theorem Performs.of_brk {i : Instruction} {target : Option Addr} {c c' : Cpu} {es : List Event}
    (h : Performs i target c .brk es c') {mem mem' : Memory} (ha : Answers mem es mem') :
    c' = c.latch (c.pending.or (some .brk)) ∧ mem' = mem := by
  cases h with
  | brk hp =>
    rw [hp]
    exact ⟨rfl, (Memory.answers_nil ..).1 ha⟩
  | @brkDropped kind hp =>
    have full : c.latch (some kind) = c := by rw [← hp]; rfl
    rw [hp, Option.some_or, full]
    exact ⟨rfl, by simpa using ha⟩

theorem settle_latched {c : Cpu} {kind : Interrupt} (hp : c.pending = some kind) (mem : Memory) :
    if c.Masks kind then
      (settle.on c mem).state = c.latch none ∧ (settle.on c mem).bus = mem ∧
        c.settleEntries mem = [.masked]
    else
      (settle.on c mem).state =
          (c.latch none).mapRegs (entered kind (mem.readWord kind.vector)) ∧
        c.settleEntries mem = [.serviced kind] := by
  obtain ⟨ns, run⟩ := settle_on_plain c mem
  have completes : (service.on c mem).outcome = .ok () :=
    service_of_neverFaults c Memory.neverFaults
  rw [run, settleEntries_on_plain, Ending.state_after, Ending.bus_after]
  obtain ⟨es, servicing, answered, entries⟩ := servicing_of_ok completes
  rw [entries]
  generalize (service.on c mem).state = c', (service.on c mem).bus = mem' at servicing answered ⊢
  cases servicing with
  | idle none =>
    rw [hp] at none
    cases none
  | masked same masks =>
    obtain rfl := Option.some.inj (hp.symm.trans same)
    rw [if_pos masks]
    exact ⟨rfl, by simpa using answered, rfl⟩
  | entered same unmasked lo hi =>
    obtain rfl := Option.some.inj (hp.symm.trans same)
    obtain ⟨rfl, rfl⟩ := Memory.holds.vector_of_entry answered.serves_noted
    rw [if_neg unmasked, notes_append, notes_map_access]
    exact ⟨rfl, rfl⟩

end Cpu

namespace Machine

variable {ω : Type} [Observer ω] {m : Machine Memory ω}

/-- A step that completes with a `BRK`: by the time interrupts are looked at, the program counter is
behind it and the latch is taken, by the older request if there was one. -/
theorem step_of_brk (h : m.step = (.ok (), m.step.2))
    (hd : Instruction.decode (m.bus.read m.cpu.regs.pc) = some ⟨0x00, .BRK, .implicit⟩) :
    ∃ c : Cpu,
    let i : Instruction := ⟨0x00, .BRK, .implicit⟩
    c.regs = m.cpu.regs.setPc (m.cpu.behind i) ∧
      c.pending = some (m.cpu.pending.getD .brk) ∧
      m.entries = Entry.ofInstruction i m.cpu.pending ++ c.settleEntries m.bus ∧
      m.step.2.cpu = (Cpu.settle.on c m.bus).state ∧ m.step.2.bus = (Cpu.settle.on c m.bus).bus := by
  obtain ⟨i, work, c, decoded, performs, worked, entries, -, cpu, bus⟩ := step_on_plain h
  obtain rfl := Option.some.inj (hd.symm.trans decoded)
  obtain ⟨left, same⟩ := performs.of_brk worked
  rw [same] at entries cpu bus
  refine ⟨c.complete ⟨0x00, .BRK, .implicit⟩, ?_, ?_, entries, cpu, bus⟩
  · rw [Cpu.regs_complete, left]
    rfl
  · rw [Cpu.pending_complete, left]
    exact Option.or_some ..

/-- On plain memory a `BRK` completes. The interrupt that was latched before it, or else its own, is
serviced behind it, unless that is an `irq` and interrupts are disabled: then the request of the `BRK`
has been dropped, the `irq` is dropped as well, and the program goes on behind the `BRK`. -/
theorem break_is_serviced (ho : ∀ o ∈ m.observers, Observer.NeverFaults o)
    (hb : m.bus.read m.cpu.regs.pc = 0x00) :
    let kind := m.cpu.pending.getD .brk
    let lost := m.cpu.pending = some .irq ∧ m.cpu.regs.flags.interruptDisable = true
    ∃ m', m.step = (.ok (), m') ∧ m'.cpu.pending = none ∧
      (¬ lost → .serviced kind ∈ m.entries ∧ m'.cpu.regs.flags.interruptDisable = true ∧
        m'.cpu.regs.pc = m.bus.readWord kind.vector) ∧
      (lost → (∀ kind, .serviced kind ∉ m.entries) ∧ m'.bus = m.bus ∧
        m'.cpu.regs = m.cpu.regs.setPc (m.cpu.behind ⟨0x00, .BRK, .implicit⟩)) := by
  have decoded : Instruction.decode (m.bus.read m.cpu.regs.pc) = some ⟨0x00, .BRK, .implicit⟩ := by
    rw [hb]
    rfl
  have completes := step_completes ho decoded rfl
  obtain ⟨c, regs, latched, entries, cpu, bus⟩ := step_of_brk completes decoded
  have settled := Cpu.settle_latched latched m.bus
  rw [← cpu, ← bus] at settled
  -- interrupts are as they were before, since a `BRK` does not disable them
  have masks : c.Masks (m.cpu.pending.getD .brk) ↔
      m.cpu.pending = some .irq ∧ m.cpu.regs.flags.interruptDisable = true := by
    unfold Cpu.Masks
    rw [regs]
    cases m.cpu.pending <;> simp
  refine ⟨m.step.2, completes, ?_, ?_, ?_⟩
  · split at settled <;> rw [settled.1] <;> rfl
  · intro serviced
    rw [if_neg (mt masks.1 serviced)] at settled
    obtain ⟨cpu', record⟩ := settled
    rw [cpu', entries, record]
    exact ⟨List.mem_append_right _ (List.mem_singleton_self _), rfl, rfl⟩
  · intro lost
    rw [if_pos (masks.2 lost)] at settled
    obtain ⟨cpu', bus', record⟩ := settled
    refine ⟨fun kind member => ?_, bus', ?_⟩
    · rw [entries, record] at member
      rcases List.mem_append.1 member with own | other
      · exact Entry.not_disables_of_mem_ofInstruction own trivial
      · cases List.mem_singleton.1 other
    · rw [cpu', ← regs]
      rfl

/-- A `BRK` where interrupts are disabled. -/
def trapping (pending : Option Interrupt) : Machine Memory Empty where
  cpu := { regs := { pc := 0x8000, flags := { interruptDisable := true } }, pending }
  bus := Memory.zero.writeWord 0xFFFE 0x9000

theorem trapping_is_serviced : ∃ m', (trapping none).step = (.ok (), m') ∧
    .serviced .brk ∈ (trapping none).entries ∧ m'.cpu.regs.pc = 0x9000 := by
  obtain ⟨m', stepped, -, serviced, -⟩ := break_is_serviced (m := trapping none) nofun rfl
  obtain ⟨record, -, handler⟩ := serviced nofun
  exact ⟨m', stepped, record, handler⟩

/-- With an `irq` in the latch nothing is serviced, and the program goes on behind the `BRK`. -/
theorem trapping_falls_through :
    let m := trapping (some .irq)
    m.bus.read m.cpu.regs.pc = 0x00 ∧ m.step.1 = .ok () ∧ (∀ kind, .serviced kind ∉ m.entries) ∧
      m.step.2.cpu.regs = { m.cpu.regs with pc := 0x8001 } ∧
      ∀ kind : Interrupt, m.step.2.cpu.regs.pc ≠ m.bus.readWord kind.vector := by
  have record : (trapping (some .irq)).entries =
      [.refused .brk, .completed ⟨0x00, .BRK, .implicit⟩, .masked] := rfl
  refine ⟨rfl, rfl, ?_, rfl, ?_⟩
  · rw [record]
    simp
  · intro kind
    cases kind <;> decide

end Machine

end Mos6502
