import Mos6502.Bus.Guarded
import Mos6502.Proofs.Session

namespace Mos6502

namespace Registers

variable (r : Registers)

@[simp] theorem interruptDisable_describe (v : Byte) :
    (r.describe v).flags.interruptDisable = r.flags.interruptDisable := rfl

@[simp] theorem interruptDisable_setCarry (carry : Bool) :
    (r.setCarry carry).flags.interruptDisable = r.flags.interruptDisable := rfl

@[simp] theorem interruptDisable_load (reg : Reg) (v : Byte) :
    (r.load reg v).flags.interruptDisable = r.flags.interruptDisable := by
  simp [load]

@[simp] theorem interruptDisable_add (m : Byte) :
    (r.add m).flags.interruptDisable = r.flags.interruptDisable := by
  simp [add]

@[simp] theorem interruptDisable_subtract (m : Byte) :
    (r.subtract m).flags.interruptDisable = r.flags.interruptDisable := by
  simp [subtract]

@[simp] theorem interruptDisable_compare (reg : Reg) (m : Byte) :
    (r.compare reg m).flags.interruptDisable = r.flags.interruptDisable := by
  simp [compare]

@[simp] theorem interruptDisable_transfer (source target : Reg) :
    (r.transfer source target).flags.interruptDisable = r.flags.interruptDisable := by
  unfold transfer
  split <;> simp

end Registers

/-- Interrupts are disabled from here on. -/
def Entry.Disables : Entry → Prop
  | .serviced _ | .restarted => True
  | _ => False

/-- Interrupts may be enabled from here on. -/
def Entry.Allows : Entry → Prop
  | .completed i => i.mnemonic = .CLI ∨ i.mnemonic = .RTI
  | .halfReturned => True
  | _ => False

namespace Entry

theorem not_disables_request (kind : Interrupt) (p : Option Interrupt) :
    ¬ (request kind p).Disables := by
  cases p <;> exact id

theorem completed_mem_ofInstruction (i : Instruction) (p : Option Interrupt) :
    .completed i ∈ ofInstruction i p := by
  unfold ofInstruction
  split <;> simp

theorem not_disables_of_mem_ofInstruction {i : Instruction} {p : Option Interrupt} {e : Entry}
    (h : e ∈ ofInstruction i p) : ¬ e.Disables := by
  unfold ofInstruction at h
  split at h
  · rcases List.mem_cons.1 h with rfl | completed
    · exact not_disables_request .brk p
    · obtain rfl := List.mem_singleton.1 completed
      exact id
  · obtain rfl := List.mem_singleton.1 h
    exact id

theorem nil_of_disables {init before later : List Entry} {x e : Entry}
    (h : init ++ [x] = before ++ e :: later) (hi : ∀ y ∈ init, ¬ y.Disables) (he : e.Disables) :
    later = [] := by
  rcases List.append_eq_append_iff.1 h with ⟨rest, -, hx⟩ | ⟨rest, hinit, hlater⟩
  · have one := congrArg List.length hx
    simp only [List.length_append, List.length_cons, List.length_nil] at one
    apply List.eq_nil_of_length_eq_zero
    omega
  · cases rest with
    | nil => exact (List.cons.inj hlater).2
    | cons y rest =>
      obtain ⟨rfl, -⟩ := List.cons.inj hlater
      refine absurd he (hi e ?_)
      rw [hinit]
      exact List.mem_append_right before List.mem_cons_self

end Entry

namespace Cpu

def HoldsOff (c : Cpu) : Prop := c.regs.flags.interruptDisable = true

variable {c c' : Cpu}

theorem HoldsOff.of_flags (h : c.HoldsOff) (hf : c'.regs.flags = c.regs.flags) : c'.HoldsOff := by
  unfold HoldsOff
  rw [hf]
  exact h

@[simp] theorem flags_complete (i : Instruction) : (c.complete i).regs.flags = c.regs.flags := by
  unfold complete advance
  split <;> rfl

theorem Performs.holds {i : Instruction} {target : Option Addr} {op : Operation} {es : List Event}
    (h : Performs i target c op es c') (hs : op ≠ .setFlag .interruptDisable false)
    (hr : op ≠ .returnFromInterrupt) (hc : c.HoldsOff) : c'.HoldsOff := by
  unfold HoldsOff at hc ⊢
  cases h with
  | returnFromInterrupt => exact absurd rfl hr
  | setFlag flag value =>
    cases flag with
    | interruptDisable =>
      cases value with
      | true => rfl
      | false => exact absurd rfl hs
    | _ => exact hc
  | load | add | subtract | logic | compare | shiftAccumulator | shiftMemory | bumpMemory | bump
  | transfer => simpa [mapRegs] using hc
  | _ => exact hc

theorem Course.holds {es : List Event} {view : View} (h : Course c es (.done c' view))
    (hn : ¬ (Entry.completed view.instruction).Allows) (hc : c.HoldsOff) : c'.HoldsOff := by
  cases h with
  | @completed opcode i hd as target hl fs c₁ hp =>
    have cli : i.mnemonic.operation ≠ .setFlag .interruptDisable false := fun h =>
      hn (.inl ((Mnemonic.operation_eq_iff .CLI rfl).1 h))
    have rti : i.mnemonic.operation ≠ .returnFromInterrupt := fun h =>
      hn (.inr ((Mnemonic.operation_eq_iff .RTI rfl).1 h))
    have held : c₁.HoldsOff := hp.holds cli rti hc
    exact held.of_flags (flags_complete i)

theorem Course.ne_brk {es : List Event} {view : View} (h : Course c es (.done c' view))
    (hp : c'.pending = none) : view.instruction.mnemonic ≠ .BRK := by
  obtain ⟨-, -, -, -, -, latched⟩ := h.of_done
  intro brk
  rw [hp, if_pos brk] at latched
  cases hc : c.pending <;> rw [hc] at latched <;> cases latched

theorem Servicing.holds {es : List Event} (h : c.Servicing es (.done c' ())) (hc : c.HoldsOff) :
    c'.HoldsOff ∧ .serviced .irq ∉ Entry.ofNotes (notes es) := by
  cases h with
  | idle => exact ⟨hc, List.not_mem_nil⟩
  | masked => exact ⟨hc, by simp [Entry.ofNotes, notes, Event.note?, Entry.ofNote?]⟩
  | @entered kind hp hm lo hi =>
    refine ⟨rfl, ?_⟩
    rw [notes_append, notes_map_access]
    intro member
    obtain rfl : kind = .irq := by
      simpa [Entry.ofNotes, notes, Event.note?, Entry.ofNote?, eq_comm] using member
    exact hm ⟨rfl, hc⟩

theorem Servicing.flags_of_cut {es : List Event} {why : Cut} (h : c.Servicing es (.cut c' why)) :
    c'.regs.flags = c.regs.flags := by
  cases h with
  | refused _ hf => exact hf

theorem Servicing.holds_of_reset {es : List Event}
    (h : (c.latch (some .reset)).Servicing es (.done c' ())) : c'.HoldsOff := by
  cases h with
  | idle hp => cases hp
  | masked hp hm =>
    cases hp
    cases hm.1
  | entered => rfl

theorem Move.holds {es : List Entry} (h : c.Move es c') (hn : ∀ e ∈ es, ¬ e.Allows)
    (hc : c.HoldsOff) : c'.HoldsOff ∧ .serviced .irq ∉ es := by
  cases h with
  | requested kind =>
    refine ⟨hc, fun member => ?_⟩
    rw [List.mem_singleton] at member
    exact Entry.not_disables_request kind c.pending (member ▸ trivial)
  | @completed _ _ view h =>
    exact ⟨h.holds (hn _ (Entry.completed_mem_ofInstruction _ _)) hc,
      fun member => Entry.not_disables_of_mem_ofInstruction member trivial⟩
  | cutShort _ hf => exact ⟨hc.of_flags hf, List.not_mem_nil⟩
  | halfReturned => exact absurd trivial (hn _ List.mem_cons_self)
  | serviced h => exact h.holds hc
  | lost h => exact ⟨hc.of_flags h.flags_of_cut, by simp⟩
  | restarted h => exact ⟨(h.holds hc).1, by simp⟩
  | notRestarted h => exact ⟨hc.of_flags h.flags_of_cut, by simp⟩
  | arranged _ hf => exact ⟨hc.of_flags hf, List.not_mem_nil⟩

theorem Moves.holds {es : List Entry} (h : c.Moves es c') (hn : ∀ e ∈ es, ¬ e.Allows)
    (hc : c.HoldsOff) : c'.HoldsOff ∧ .serviced .irq ∉ es := by
  induction h with
  | refl => exact ⟨hc, List.not_mem_nil⟩
  | step h _ ih =>
    obtain ⟨held, first⟩ := h.holds (fun e he => hn e (List.mem_append_left _ he)) hc
    obtain ⟨still, rest⟩ := ih (fun e he => hn e (List.mem_append_right _ he)) held
    refine ⟨still, fun member => ?_⟩
    rcases List.mem_append.1 member with member | member
    · exact first member
    · exact rest member

/-- An interrupt that is serviced disables interrupts, and is the last that a move does. -/
theorem Move.disables {es before later : List Entry} {e : Entry} (h : c.Move es c')
    (hes : es = before ++ e :: later) (he : e.Disables) : later = [] ∧ c'.HoldsOff := by
  have member : e ∈ es := by
    rw [hes]
    exact List.mem_append_right before List.mem_cons_self
  cases h with
  | requested kind =>
    obtain rfl := List.mem_singleton.1 member
    exact absurd he (Entry.not_disables_request kind c.pending)
  | completed => exact absurd he (Entry.not_disables_of_mem_ofInstruction member)
  | cutShort | arranged => cases member
  | halfReturned =>
    obtain rfl := List.mem_singleton.1 member
    exact he.elim
  | serviced h =>
    cases h with
    | idle => cases member
    | masked =>
      obtain rfl := List.mem_singleton.1 member
      exact he.elim
    | @entered kind =>
      rw [notes_append, notes_map_access] at hes
      have single : [] ++ [.serviced kind] = before ++ e :: later := hes
      exact ⟨Entry.nil_of_disables single (by simp) he, rfl⟩
  | lost | notRestarted =>
    obtain ⟨kind, -, rfl⟩ := List.mem_map.1 member
    exact he.elim
  | restarted h =>
    refine ⟨Entry.nil_of_disables hes ?_ he, h.holds_of_reset⟩
    intro y hy
    obtain ⟨kind, -, rfl⟩ := List.mem_map.1 hy
    exact id

/-- From an interrupt that is serviced up to where the program allows another. -/
theorem Moves.holds_from {es before later : List Entry} {e : Entry} (h : c.Moves es c')
    (hes : es = before ++ e :: later) (he : e.Disables) (hn : ∀ x ∈ later, ¬ x.Allows) :
    c'.HoldsOff ∧ .serviced .irq ∉ later := by
  induction h generalizing before with
  | refl => simp at hes
  | @step _ _ _ es fs first rest ih =>
    rcases List.append_eq_append_iff.1 hes with ⟨before', -, hfs⟩ | ⟨own, hfirst, hlater⟩
    · exact ih hfs
    · cases own with
      | nil =>
        have hfs : fs = [] ++ e :: later := hlater.symm
        exact ih hfs
      | cons x own =>
        -- the move that services the interrupt does nothing behind it
        rw [List.cons_append] at hlater
        obtain ⟨rfl, rfl⟩ := List.cons.inj hlater
        obtain ⟨rfl, held⟩ := first.disables hfirst he
        exact rest.holds hn held

end Cpu

namespace Machine

variable {β ω : Type} [Bus β] [Observer ω]

/-- Behind an instruction that leaves interrupts enabled and nothing latched, a line that asks for an
interrupt gets it, on the bus `b` that the poll has left. The program goes on from there when the
handler returns. -/
structure GetsThrough (m : Machine β ω) (b : β) (m' : Machine β ω) : Prop where
  record : ∃ i, m.entries = [.completed i, .accepted .irq, .serviced .irq]
  saved : ∃ lo hi,
    let r := m.instruct.state.regs
    Serves b
      [⟨.write, Cpu.stackAddr r.sp, UInt8.ofNat (r.pc.toNat / 256)⟩,
        ⟨.write, Cpu.stackAddr (r.sp - 1), UInt8.ofNat (r.pc.toNat % 256)⟩,
        ⟨.write, Cpu.stackAddr (r.sp - 2), r.flags.toByte false⟩,
        ⟨.read, 0xFFFE, lo⟩, ⟨.read, 0xFFFF, hi⟩] m'.bus ∧
    m'.cpu.regs = { r with
      sp := r.sp - 3
      flags := { r.flags with interruptDisable := true }
      pc := UInt16.ofNat (lo.toNat + 256 * hi.toNat) }

theorem getsThrough {m m' : Machine β ω} (h : m.step = (.ok (), m')) {view : View}
    (hi : m.instruct.outcome = .ok view) (he : ¬ m.instruct.state.HoldsOff)
    (hp : m.instruct.state.pending = none) (hl : Bus.irq (m.tell view).bus = true) :
    m.GetsThrough (Bus.polled (m.tell view).bus) m' := by
  obtain ⟨view', hi', ht, settled, engine, bus⟩ := step_eq_ok h
  obtain rfl : view = view' := Except.ok.inj (hi.symm.trans hi')
  have polls : Bus.poll (m.tell view).bus = (.ok true, Bus.polled (m.tell view).bus) :=
    Bus.poll_of_irq hl
  -- what is latched now is the request of the line
  have latched : m.instruct.state.latched true = some .irq := by
    rw [Cpu.latched, hp]
    rfl
  obtain ⟨ns, run⟩ := m.instruct.state.settle_on polls
  rw [latched] at run
  rw [run] at settled engine bus
  obtain ⟨es, servicing, answered, record⟩ := Cpu.servicing_of_ok settled
  have entries : m.entries =
      [.completed view.instruction] ++ ([.accepted .irq] ++ Entry.ofNotes (notes es)) := by
    have plain := (m.cpu.instruction_ensures.on_ok hi).1.ne_brk hp
    rw [entries_of_ok hi ht, Entry.ofInstruction, if_neg plain, Cpu.settleEntries_of_poll polls,
      latched, hp, record]
    rfl
  have regs : m'.cpu.regs = (Cpu.service.on (m.instruct.state.latch (some .irq))
      (Bus.polled (m.tell view).bus)).state.regs := by
    rw [engine]
    rfl
  generalize (Cpu.service.on (m.instruct.state.latch (some .irq))
    (Bus.polled (m.tell view).bus)).state = c at servicing regs
  cases servicing with
  | idle none => cases none
  | masked _ masked => exact absurd masked.2 he
  | entered same _ lo hi =>
    cases same
    rw [notes_append, notes_map_access] at entries
    refine ⟨⟨view.instruction, entries⟩, lo, hi, ?_, regs⟩
    rw [bus]
    exact answered.serves_noted

/-- Once an interrupt has been serviced, interrupts stay disabled and no `irq` is serviced until `CLI`
or `RTI` has completed, or a fault has cut an `RTI` short behind the status byte. And a step that
completes leaves nothing latched, and lets the line through if the program allows it. -/
theorem irqs_do_not_nest (m : Machine β ω) (calls : List (Call β ω)) :
    (∀ before e later, m.record calls = before ++ e :: later → e.Disables →
      (∀ x ∈ later, ¬ x.Allows) →
      (m.performs calls).cpu.HoldsOff ∧ .serviced .irq ∉ later) ∧
    let m₁ := m.performs calls
    ∀ m₂ view, m₁.step = (.ok (), m₂) → m₁.instruct.outcome = .ok view →
      m₂.cpu.pending = none ∧
      (¬ m₁.instruct.state.HoldsOff → m₁.instruct.state.pending = none →
        Bus.irq (m₁.tell view).bus = true →
          m₁.GetsThrough (Bus.polled (m₁.tell view).bus) m₂) := by
  refine ⟨fun before e later record he hn => ?_, fun m₂ view completes shown => ⟨?_, ?_⟩⟩
  · exact (m.moves_of_calls calls).holds_from record he hn
  · obtain ⟨_, -, -, settled, engine, -⟩ := step_eq_ok completes
    rw [engine]
    exact ((Cpu.settle_ensures _).on_ok settled).1.pending_of_done
  · exact getsThrough completes shown

/-- The line asks for an interrupt while a handler runs that consists of a `NOP` and the return. -/
def handling : Machine Wired Empty where
  cpu := { regs := { pc := 0x8000 } }
  bus := {
    memory := (Memory.zero.store 0x9000 [0xEA, 0x40]).store 0xFFFA
      [0x00, 0x90, 0x00, 0x80, 0x00, 0xA0]
    line := true }

theorem handling_holds_off_irq :
    let m₁ := handling.performs [.request .nmi, .service, .step]
    m₁.cpu.HoldsOff ∧ m₁.GetsThrough
      (Bus.polled (m₁.tell (m₁.instruct.state.view ⟨0x40, .RTI, .implicit⟩)).bus) m₁.step.2 := by
  obtain ⟨held, through⟩ := irqs_do_not_nest handling [.request .nmi, .service, .step]
  have record : handling.record [.request .nmi, .service, .step] = [.accepted .nmi] ++
      .serviced .nmi :: [.completed ⟨0xEA, .NOP, .implicit⟩, .accepted .irq, .masked] := rfl
  refine ⟨(held _ _ _ record trivial ?_).1, (through _ _ rfl rfl).2 ?_ rfl rfl⟩
  · simp [Entry.Allows]
  · show ¬ false = true
    decide

def halfReturning : Machine (Guarded Wired) Empty where
  cpu := { regs := { pc := 0x8000 } }
  bus := {
    bus := {
      memory := ((Memory.zero.write 0x8000 0xEA).write 0x9000 0x40).store 0xFFFA
        [0x00, 0x90, 0x00, 0x80, 0x00, 0xA0]
      line := true }
    rules := [⟨.read, 0x01FC, 0x01FC, .text "bus fault"⟩] }

def goingBack : Arrangement (Guarded Wired) Empty where
  act m := m.modifyRegs (·.setPc 0x8000)
  pending _ := rfl
  flags _ := rfl

/-- An `RTI` that a fault cuts short enables interrupts though it does not complete. -/
theorem halfReturning_nests :
    let calls : List (Call (Guarded Wired) Empty) :=
      [.request .nmi, .service, .runFor 1, .arrange goingBack, .step]
    ¬ (halfReturning.performs (calls.take 3)).cpu.HoldsOff ∧
    ¬ ∀ before e later, halfReturning.record calls = before ++ e :: later → e.Disables →
      (∀ i, .completed i ∈ later → i.mnemonic ≠ .CLI ∧ i.mnemonic ≠ .RTI) →
      .serviced .irq ∉ later := by
  intro calls
  have record : halfReturning.record calls = [.accepted .nmi] ++ .serviced .nmi ::
      [.halfReturned, .completed ⟨0xEA, .NOP, .implicit⟩, .accepted .irq, .serviced .irq] := rfl
  constructor
  · show ¬ false = true
    decide
  · intro held
    apply held _ _ _ record trivial
    · intro i member
      obtain rfl : i = ⟨0xEA, .NOP, .implicit⟩ := by simpa using member
      decide
    · simp

end Machine

end Mos6502
