import Mos6502.Proofs.Faultless
import Mos6502.Proofs.PlainMemory
import Mos6502.Proofs.RegisterWrites

namespace Mos6502

/-- The address that a mode gives an instruction, in a state with registers `r` on the memory `mem`. -/
def Mode.effective (mem : Memory) (r : Registers) : Mode → Option Addr
  | .implicit | .accumulator => none
  | .immediate => some (r.pc + 1)
  | .zeroPage => some (pageZero (mem.read (r.pc + 1)))
  | .zeroPageX => some (pageZero (mem.read (r.pc + 1) + r.x))
  | .zeroPageY => some (pageZero (mem.read (r.pc + 1) + r.y))
  | .relative => some (displace (r.pc + 2) (mem.read (r.pc + 1)))
  | .absolute => some (mem.readWord (r.pc + 1))
  | .absoluteX => some (mem.readWord (r.pc + 1) + r.x.toUInt16)
  | .absoluteY => some (mem.readWord (r.pc + 1) + r.y.toUInt16)
  | .indirect => some (mem.readWord (mem.readWord (r.pc + 1)))
  | .indirectX => some (mem.readWord (pageZero (mem.read (r.pc + 1) + r.x)))
  | .indirectY => some (mem.readWord (pageZero (mem.read (r.pc + 1))) + r.y.toUInt16)

theorem Mode.Lookup.effective {r : Registers} {mode : Mode} {as : List Access}
    {target : Option Addr} (h : Lookup r mode as target) {mem mem' : Memory} {es : List Event}
    (ha : Answers mem (as.map .access ++ es) mem') :
    target = mode.effective mem r ∧ Answers mem es mem' := by
  have next : r.pc + 2 = r.pc + 1 + 1 := by rw [UInt16.add_assoc]; rfl
  cases h with
  | implicit | accumulator | immediate => exact ⟨rfl, ha⟩
  | zeroPage | zeroPageX | zeroPageY | relative =>
    obtain ⟨rfl, rest⟩ := (Memory.answers_read ..).1 ha
    exact ⟨rfl, rest⟩
  | absolute | absoluteX | absoluteY =>
    simp only [List.map_cons, List.map_nil, List.cons_append, List.nil_append, next,
      Memory.answers_read] at ha
    obtain ⟨rfl, rfl, rest⟩ := ha
    exact ⟨rfl, rest⟩
  | indirect _ _ hp =>
    subst hp
    simp only [List.map_cons, List.map_nil, List.cons_append, List.nil_append, next,
      Memory.answers_read] at ha
    obtain ⟨rfl, rfl, rfl, rfl, rest⟩ := ha
    exact ⟨rfl, rest⟩
  | indirectX _ hp | indirectY _ hp =>
    subst hp
    simp only [List.map_cons, List.map_nil, List.cons_append, List.nil_append,
      Memory.answers_read] at ha
    obtain ⟨rfl, rfl, rfl, rest⟩ := ha
    exact ⟨rfl, rest⟩

/-- What is said of some operations, but neither of `BRK` nor of those that are not carried out. -/
theorem Operation.carried {α : Type} {g : Operation → Option α} (hs : g .unsupported = none)
    (hb : g .brk = none) {op : Operation} {a : α} (h : g op = some a) :
    op ≠ .unsupported ∧ op ≠ .brk := by
  constructor
  · rintro rfl
    rw [hs] at h
    cases h
  · rintro rfl
    rw [hb] at h
    cases h

theorem Cpu.works_on_effective {c : Cpu} {mem : Memory} {i : Instruction}
    (hd : Instruction.decode (mem.read c.regs.pc) = some i) (hs : i.mnemonic.supported = true) :
    ∃ work c', Performs i (i.mode.effective mem c.regs) (c.begun (mem.read c.regs.pc) i)
        i.mnemonic.operation work c' ∧
      let run := instruction.on c mem
      Answers mem work run.bus ∧ run.state = c'.complete i ∧
        run.outcome = .ok ((c'.complete i).view i) := by
  obtain ⟨as, target, work, c', lookup, performs, answered, state, outcome⟩ :=
    instruction_on_plain hd hs
  obtain ⟨rfl, worked⟩ := lookup.effective answered
  exact ⟨work, c', performs, worked, state, outcome⟩

namespace Cpu

theorem latch_unasked (c : Cpu) : c.latch (c.latched false) = c := by
  show c.latch (c.pending.or none) = c
  rw [Option.or_none]
  rfl

theorem settle_on_plain (c : Cpu) (mem : Memory) :
    ∃ ns, settle.on c mem = (service.on c mem).after ns := by
  obtain ⟨ns, run⟩ := settle_on c mem.bus_poll
  rw [latch_unasked] at run
  exact ⟨ns, run⟩

theorem settleEntries_on_plain (c : Cpu) (mem : Memory) :
    c.settleEntries mem = c.serviceEntries mem := by
  rw [settleEntries_of_poll mem.bus_poll, latch_unasked]
  rfl

theorem settleEntries_of_idle {c : Cpu} (hp : c.pending = none) (mem : Memory) :
    c.settleEntries mem = [] := by
  rw [settleEntries_on_plain]
  simp [serviceEntries, service, hp, Entry.ofNotes]

end Cpu

namespace Machine

variable {ω : Type} [Observer ω] {m m' : Machine Memory ω}

theorem step_completes (ho : ∀ o ∈ m.observers, Observer.NeverFaults o) {i : Instruction}
    (hd : Instruction.decode (m.bus.read m.cpu.regs.pc) = some i)
    (hs : i.mnemonic.supported = true) : m.step = (.ok (), m.step.2) := by
  obtain ⟨opcode, fetched, ends⟩ := Faultless.step_verdict ⟨Memory.neverFaults, ho⟩
  obtain rfl : m.bus.read m.cpu.regs.pc = opcode := Except.ok.inj fetched
  exact Prod.ext (ends.trans (Cpu.verdict_of_supported hd hs)) rfl

/-- A step that completes: its instruction, and what is serviced behind it. -/
theorem step_on_plain (h : m.step = (.ok (), m')) : ∃ i work c,
    let opcode := m.bus.read m.cpu.regs.pc
    Instruction.decode opcode = some i ∧
      Cpu.Performs i (i.mode.effective m.bus m.cpu.regs) (m.cpu.begun opcode i)
        i.mnemonic.operation work c ∧
      Answers m.bus work m.instruct.bus ∧
      m.entries = Entry.ofInstruction i m.cpu.pending ++
        (c.complete i).settleEntries m.instruct.bus ∧
      let settled := Cpu.settle.on (c.complete i) m.instruct.bus
      settled.outcome = .ok () ∧ m'.cpu = settled.state ∧ m'.bus = settled.bus := by
  obtain ⟨view, hi, ht, hs, he, hb⟩ := step_eq_ok h
  have same : (m.tell view).bus = m.instruct.bus :=
    Memory.quiet.served (serves_told ht) (m.writesNothing_told view)
  obtain ⟨course, answered⟩ := m.cpu.instruction_ensures.on_ok hi
  obtain ⟨opcode, rest, fetches, hd, shown, -⟩ := course.of_done
  rw [fetches] at answered
  obtain ⟨rfl, -⟩ := (Memory.answers_read ..).1 answered
  obtain ⟨work, c, performs, worked, state, outcome⟩ :=
    Cpu.works_on_effective hd course.supported
  have left : m.instruct.state = c.complete view.instruction := state
  have entries := entries_of_ok hi ht
  rw [same, left] at hs he hb entries
  exact ⟨view.instruction, work, c, hd, performs, worked, entries, hs, congrArg Engine.cpu he, hb⟩

/-- Behind an instruction that leaves nothing to be serviced a step changes nothing more, not even if
an observer faults. -/
theorem step_of_unlatched {view : View} (hi : m.instruct.outcome = .ok view)
    (hp : m.instruct.state.pending = none) :
    m.step.2.cpu = m.instruct.state ∧ m.step.2.bus = m.instruct.bus := by
  cases ht : (m.tell view).outcome with
  | error why =>
    obtain ⟨⟨looks, -⟩, answered⟩ :=
      (Engine.notify_ensures view m.instructed).on_abort Memory.neverFaults ht
    have same : (m.tell view).bus = m.instruct.bus := Memory.quiet.answered answered looks
    rw [(step_of_tell_failed hi ht).2, same]
    exact ⟨cpu_of_tell_failed hi ht, rfl⟩
  | ok _ =>
    have same : (m.tell view).bus = m.instruct.bus :=
      Memory.quiet.served (serves_told ht) (m.writesNothing_told view)
    obtain ⟨-, engine, bus⟩ := step_of_told hi ht
    rw [same, Cpu.settle_of_idle hp] at engine bus
    exact ⟨congrArg Engine.cpu engine, bus⟩

/-- Nothing is latched, and the instruction at the program counter is `i`. -/
structure Ready (m : Machine Memory ω) (i : Instruction) : Prop where
  pending : m.cpu.pending = none
  decoded : Instruction.decode (m.bus.read m.cpu.regs.pc) = some i

theorem Ready.step {i : Instruction} (h : m.Ready i)
    (hs : i.mnemonic.operation ≠ .unsupported) (hb : i.mnemonic.operation ≠ .brk) : ∃ work c,
    Cpu.Performs i (i.mode.effective m.bus m.cpu.regs) (m.cpu.begun (m.bus.read m.cpu.regs.pc) i)
        i.mnemonic.operation work c ∧
      Answers m.bus work m.step.2.bus ∧ m.step.2.cpu = c.complete i ∧
      m.step.2.cpu.pending = none ∧
      ((∀ o ∈ m.observers, Observer.NeverFaults o) → m.step.1 = .ok ()) := by
  have supported : i.mnemonic.supported = true := bne_iff_ne.2 hs
  obtain ⟨work, c, performs, worked, state, outcome⟩ := Cpu.works_on_effective h.decoded supported
  have left : m.instruct.state = c.complete i := state
  have unlatched : m.instruct.state.pending = none := by
    rw [left, Cpu.pending_complete, performs.pending, if_neg hb, Cpu.pending_begun, h.pending]
    rfl
  obtain ⟨cpu, bus⟩ := step_of_unlatched outcome unlatched
  refine ⟨work, c, performs, ?_, cpu.trans left, ?_, fun ho => ?_⟩
  · rw [bus]
    exact worked
  · rw [cpu]
    exact unlatched
  · rw [step_completes ho h.decoded supported]

theorem Ready.entries {i : Instruction} (h : m.Ready i) (hb : i.mnemonic.operation ≠ .brk)
    (hs : m.step = (.ok (), m')) : m.entries = [.completed i] := by
  obtain ⟨j, work, c, decoded, performs, -, entries, -⟩ := step_on_plain hs
  obtain rfl := Option.some.inj (h.decoded.symm.trans decoded)
  have notBreak : i.mnemonic ≠ .BRK := mt (Mnemonic.operation_eq_iff .BRK rfl).2 hb
  have unlatched : (c.complete i).pending = none := by
    rw [Cpu.pending_complete, performs.pending, if_neg hb, Cpu.pending_begun, h.pending]
    rfl
  rw [entries, Entry.ofInstruction, if_neg notBreak, Cpu.settleEntries_of_idle unlatched]
  rfl

end Machine

end Mos6502
