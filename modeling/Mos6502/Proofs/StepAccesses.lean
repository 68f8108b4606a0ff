import Mos6502.Proofs.InterruptDecision

namespace Mos6502

/-- What an access touches, without the byte. -/
def Access.place (a : Access) : AccessKind × Addr := (a.kind, a.addr)

/-- What an instruction touches once its target is resolved, in a state with registers `r`. -/
def Mnemonic.touches (mnemonic : Mnemonic) (r : Registers) (target : Option Addr) :
    List (AccessKind × Addr) :=
  match mnemonic with
  | .LDA | .LDX | .LDY | .ADC | .SBC | .AND | .ORA | .EOR | .CMP | .CPX | .CPY =>
    target.toList.map fun addr => (.read, addr)
  | .STA | .STX | .STY => target.toList.map fun addr => (.write, addr)
  -- a shift of the accumulator has no target
  | .INC | .DEC | .ASL | .LSR | .ROL | .ROR =>
    target.toList.flatMap fun addr => [(.read, addr), (.write, addr)]
  | .JSR => [(.write, Cpu.stackAddr r.sp), (.write, Cpu.stackAddr (r.sp - 1))]
  | .RTS => [(.read, Cpu.stackAddr (r.sp + 1)), (.read, Cpu.stackAddr (r.sp + 2))]
  | .RTI =>
    [(.read, Cpu.stackAddr (r.sp + 1)), (.read, Cpu.stackAddr (r.sp + 2)),
      (.read, Cpu.stackAddr (r.sp + 3))]
  | _ => []

def Operation.touches (op : Operation) (r : Registers) (target : Option Addr) :
    List (AccessKind × Addr) :=
  match op with
  | .load _ | .add | .subtract | .logic _ | .compare _ =>
    target.toList.map fun addr => (.read, addr)
  | .store _ => target.toList.map fun addr => (.write, addr)
  | .bumpMemory _ | .shift _ => target.toList.flatMap fun addr => [(.read, addr), (.write, addr)]
  | .call => Mnemonic.JSR.touches r target
  | .ret => Mnemonic.RTS.touches r target
  | .returnFromInterrupt => Mnemonic.RTI.touches r target
  | _ => []

theorem Mnemonic.touches_operation (mnemonic : Mnemonic) (r : Registers) (target : Option Addr) :
    mnemonic.operation.touches r target = mnemonic.touches r target := by
  cases mnemonic <;> rfl

def Interrupt.touches (kind : Interrupt) (sp : Byte) : List (AccessKind × Addr) :=
  let vector := [(.read, kind.vector), (.read, kind.vector + 1)]
  if kind = .reset then vector
  else (.write, Cpu.stackAddr sp) :: (.write, Cpu.stackAddr (sp - 1)) ::
    (.write, Cpu.stackAddr (sp - 2)) :: vector

theorem Interrupt.place_entry (kind : Interrupt) (r : Registers) (lo hi : Byte) :
    (kind.entry r lo hi).map Access.place = kind.touches r.sp := by
  cases kind <;> rfl

namespace Cpu

theorem Performs.touches {i : Instruction} {target : Option Addr} {c c' : Cpu} {op : Operation}
    {es : List Event} (h : Performs i target c op es c')
    (ha : i.mode = .accumulator → target = none) :
    (accesses es).map Access.place = op.touches c.regs target := by
  cases h with
  | load ht | store ht | add ht | subtract ht | logic ht | compare ht | bumpMemory ht
  | shiftMemory _ ht =>
    rw [ht]
    rfl
  | shiftAccumulator hm =>
    rw [ha hm]
    rfl
  | _ => rfl

def serviced (c : Cpu) (taken : Option Interrupt) : Option Interrupt :=
  taken.filter fun kind => ¬ c.Masks kind

def settles (c : Cpu) (taken : Option Interrupt) : List (AccessKind × Addr) :=
  match c.serviced taken with
  | none => []
  | some kind => kind.touches c.regs.sp

theorem Servicing.touches {c c' : Cpu} {es : List Event} (h : Servicing c es (.done c' ())) :
    (accesses es).map Access.place = c.settles c.pending := by
  unfold settles serviced
  cases h with
  | idle hp =>
    rw [hp]
    rfl
  | masked hp hm =>
    rw [hp, Option.filter_some, if_neg (by simpa using hm)]
    rfl
  | @entered kind hp hm lo hi =>
    rw [hp, Option.filter_some, if_pos (by simpa using hm), accesses_append, accesses_map_access,
      accesses_note, accesses_nil, List.append_nil]
    exact kind.place_entry c.regs lo hi

theorem Settling.touches {β : Type} [Bus β] {c c' : Cpu} {b b' : β} {es : List Event}
    (h : Settling c es (.done c' ())) (ha : Answers b es b') :
    ∃ line b₁, Bus.poll b = (.ok line, b₁) ∧
      (accesses es).map Access.place = c.settles (c.latched line) := by
  cases h with
  | polled line ns hs =>
    cases ha with
    | poll hp _ =>
      refine ⟨line, _, hp, ?_⟩
      rw [accesses_poll, accesses_append, accesses_map_note, List.nil_append]
      exact hs.touches

/-- The accesses of an instruction `i` that is carried out from `c`: the fetch, the reads that lead
to its target, and those of its own. -/
inductive Carried (c : Cpu) (i : Instruction) : List Access → Prop
  | mk {opcode : Byte} (hd : Instruction.decode opcode = some i)
      (hs : i.mnemonic.supported = true) {lookup : List Access} {target : Option Addr}
      (hl : i.mode.Lookup c.regs lookup target) {work : List Access}
      (hw : work.map Access.place = i.mnemonic.touches c.regs target) :
      Carried c i (⟨.read, c.regs.pc, opcode⟩ :: (lookup ++ work))

theorem Course.carried {c c' : Cpu} {es : List Event} {view : View}
    (h : Course c es (.done c' view)) : c.Carried view.instruction (accesses es) := by
  cases h with
  | @completed opcode i hd lookup target hl es c₁ hp =>
    have own : (accesses es).map Access.place = i.mnemonic.touches c.regs target := by
      rw [hp.touches hl.target_of_accumulator]
      exact i.mnemonic.touches_operation c.regs target
    rw [accesses_access, accesses_append, accesses_map_access, accesses_append, accesses_note,
      accesses_nil, List.append_nil]
    exact .mk hd (bne_iff_ne.2 hp.ne_unsupported) hl own

end Cpu

namespace Machine

variable {β ω : Type} [Bus β]

/-- The accesses of a step of `m`, with the outcome they go with. The bus refuses none of them. -/
inductive Traced (m : Machine β ω) : List Access → Except Abort Unit → Prop
  | undocumented {opcode : Byte} (hd : Instruction.decode opcode = none) :
      Traced m [⟨.read, m.cpu.regs.pc, opcode⟩]
        (.error (.error (.undocumented opcode m.cpu.regs.pc)))
  | unsupported {opcode : Byte} {i : Instruction} (hd : Instruction.decode opcode = some i)
      (hs : i.mnemonic.supported = false) {lookup : List Access} {target : Option Addr}
      (hl : i.mode.Lookup m.cpu.regs lookup target) :
      Traced m (⟨.read, m.cpu.regs.pc, opcode⟩ :: lookup)
        (.error (.error (.notImplemented i m.cpu.regs.pc)))
  /-- An observer faults. -/
  | told {i : Instruction} {as : List Access} (hc : m.cpu.Carried i as) {told : List Access}
      (ht : WritesNothing told) (hn : m.observers ≠ []) (f : Fault) :
      Traced m (as ++ told) (.error (.fault f))
  /-- The line is polled on the bus `b`, and an interrupt is serviced that is due then. -/
  | settled {i : Instruction} {as : List Access} (hc : m.cpu.Carried i as) {told : List Access}
      (ht : WritesNothing told) (hn : m.observers = [] → told = []) {b : β}
      (hb : Serves m.bus (as ++ told) b) {line : Bool} {b₁ : β} (hp : Bus.poll b = (.ok line, b₁))
      {service : List Access}
      (hv : service.map Access.place = m.instruct.state.settles (m.cpu.taken i line)) :
      Traced m (as ++ told ++ service) (.ok ())

theorem traced_of_abort {m : Machine β ω} {es : List Event} {c : Cpu} {why : Abort}
    (h : m.cpu.Course es (.cut c (.abort why))) : m.Traced (accesses es) (.error why) := by
  cases h with
  | undocumented hd => exact .undocumented hd
  | unsupported hd hl hop =>
    rw [accesses_access, accesses_map_access]
    exact .unsupported hd (bne_eq_false_iff_eq.2 hop) hl
  | faltered _ _ hf => exact absurd rfl (hf.ne_abort _)

variable [Observer ω]

theorem step_traced_of_ok {m : Machine β ω} (hf : Bus.NeverFaults m.bus) {view : View}
    (hi : m.instruct.outcome = .ok view) :
    ∃ es, m.Traced (accesses es) m.step.1 ∧ Answers m.bus es m.step.2.bus := by
  obtain ⟨done, ha⟩ := m.cpu.instruction_ensures.on_ok hi
  have carried := done.carried
  cases ht : (m.tell view).outcome with
  | error why =>
    -- the bus refuses nothing, so an observer has faulted
    obtain ⟨faulted, ha'⟩ :=
      (Engine.notify_ensures view m.instructed).on_abort (hf.later ha) ht
    obtain ⟨f, rfl⟩ := Cut.isFault_abort.1 faulted.2.2
    have observed : m.observers ≠ [] := by
      intro none
      rw [tell_of_nil none] at ht
      cases ht
    obtain ⟨outcome, bus⟩ := step_of_tell_failed hi ht
    refine ⟨_, ?_, bus ▸ ha.append ha'⟩
    rw [outcome, accesses_append]
    exact .told carried faulted.1.1 observed f
  | ok _ =>
    have asked := ha.append (Engine.notify_ensures view m.instructed |>.on_ok ht).2
    obtain ⟨outcome, -, bus⟩ := step_of_told hi ht
    cases hs : (Cpu.settle.on m.instruct.state (m.tell view).bus).outcome with
    | error why =>
      have cut := ((Cpu.settle_ensures m.instruct.state).on_abort (hf.later asked) hs).1
      exact absurd rfl (cut.ne_abort why)
    | ok _ =>
      obtain ⟨settling, ha'⟩ := (Cpu.settle_ensures m.instruct.state).on_ok hs
      obtain ⟨line, b₁, polled, touched⟩ := settling.touches ha'
      have latched : m.instruct.state.latched line = m.cpu.taken view.instruction line :=
        done.latched line
      rw [latched] at touched
      refine ⟨_, ?_, bus ▸ asked.append ha'⟩
      rw [outcome, hs, accesses_append, accesses_append]
      exact .settled carried (m.writesNothing_told view) (fun h => told_of_nil h view)
        ((ha.serves done.unpolled).append (serves_told ht)) polled touched

theorem step_traced {m : Machine β ω} (hf : Bus.NeverFaults m.bus) :
    ∃ es, m.Traced (accesses es) m.step.1 ∧ Answers m.bus es m.step.2.bus := by
  cases hi : m.instruct.outcome with
  | error why =>
    obtain ⟨cut, ha⟩ := m.cpu.instruction_ensures.on_abort hf hi
    rw [step_of_failed hi]
    exact ⟨_, traced_of_abort cut, ha⟩
  | ok view => exact step_traced_of_ok hf hi

/-- A step makes the accesses of `Traced` and no others; what the bus holds changes by the writes
among them. -/
theorem step_accesses {m : Machine (Recorded β) ω} (hf : Bus.NeverFaults m.bus.bus) :
    ∃ as, m.step.2.bus.accesses.toList = m.bus.accesses.toList ++ as ∧ m.Traced as m.step.1 ∧
      ∀ cell : β → Addr → Byte, Bus.Holds cell →
        cell m.step.2.bus.bus = stored (cell m.bus.bus) as ∧
        ∀ addr, (∀ a ∈ as, a.kind = .write → a.addr ≠ addr) →
          cell m.step.2.bus.bus addr = cell m.bus.bus addr := by
  obtain ⟨es, traced, answered⟩ := step_traced (Recorded.neverFaults hf)
  obtain ⟨recorded, within⟩ := answered.recorded
  refine ⟨accesses es, recorded, traced, fun cell hc => ?_⟩
  have held := hc.answered within
  refine ⟨held, fun addr hw => ?_⟩
  rw [held]
  exact stored_of_not_written _ _ hw

/-- `INC $1234`, where the byte to be incremented is the last one. -/
def incrementing : Machine (Recorded Memory) Empty where
  cpu := { regs := { pc := 0x8000 } }
  bus := { bus := (Memory.zero.store 0x8000 [0xEE, 0x34, 0x12]).write 0x1234 0xFF }

def jumping : Machine (Recorded Memory) Empty where
  cpu := { regs := { pc := 0x8000 } }
  bus := { bus := (Memory.zero.store 0x8000 [0x6C, 0xFF, 0x12]).store 0x12FF [0x00, 0x90] }

theorem incrementing_traced :
    incrementing.Traced [⟨.read, 0x8000, 0xEE⟩, ⟨.read, 0x8001, 0x34⟩, ⟨.read, 0x8002, 0x12⟩,
      ⟨.read, 0x1234, 0xFF⟩, ⟨.write, 0x1234, 0x00⟩] (.ok ()) ∧
    jumping.Traced [⟨.read, 0x8000, 0x6C⟩, ⟨.read, 0x8001, 0xFF⟩, ⟨.read, 0x8002, 0x12⟩,
      ⟨.read, 0x12FF, 0x00⟩, ⟨.read, 0x1300, 0x90⟩] (.ok ()) := by
  constructor
  · obtain ⟨as, recorded, traced, -⟩ := step_accesses (m := incrementing) Memory.neverFaults
    obtain rfl : _ = as := recorded
    exact traced
  · obtain ⟨as, recorded, traced, -⟩ := step_accesses (m := jumping) Memory.neverFaults
    obtain rfl : _ = as := recorded
    exact traced

end Machine

end Mos6502
