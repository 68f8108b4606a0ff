import Mos6502.Bus.Guarded
import Mos6502.Proofs.Runs

namespace Mos6502

def Cut.Faults {β : Type} [Bus β] (why : Cut) (b : β) (f : Fault) : Prop :=
  match why with
  | .abort _ | .refusedPoll => False
  | .refusedRead addr => (Bus.read b addr).1 = .error f
  | .refusedWrite addr v => (Bus.write b addr v).1 = .error f

/-- An access that faults has no effect. -/
structure Bus.FaultsFirst (β : Type) [Bus β] : Prop where
  read {b b' : β} {addr : Addr} {f : Fault} (h : Bus.read b addr = (.error f, b')) : b' = b
  write {b b' : β} {addr : Addr} {v : Byte} {f : Fault} (h : Bus.write b addr v = (.error f, b')) :
    b' = b

theorem Memory.faultsFirst : Bus.FaultsFirst Memory where
  read h := by cases h
  write h := by cases h

theorem Guarded.faultsFirst {β : Type} [Bus β] (hb : Bus.FaultsFirst β) :
    Bus.FaultsFirst (Guarded β) where
  read {b b' addr f} h := by
    simp only [Bus.read] at h
    split at h
    · exact (congrArg Prod.snd h).symm
    · obtain ⟨hr, rfl⟩ := Prod.mk.inj h
      have same : (Bus.read b.bus addr).2 = b.bus := hb.read (Prod.ext hr rfl)
      rw [same]
  write {b b' addr v f} h := by
    simp only [Bus.write] at h
    split at h
    · exact (congrArg Prod.snd h).symm
    · obtain ⟨hw, rfl⟩ := Prod.mk.inj h
      have same : (Bus.write b.bus addr v).2 = b.bus := hb.write (Prod.ext hw rfl)
      rw [same]

/-- Work that ends with a fault of the bus leaves the bus as it was when the access was refused. -/
theorem Finish.Ended.faulted {σ α β : Type} [Bus β] (hb : Bus.FaultsFirst β) {b b' : β} {s s' : σ}
    {why : Cut} {f : Fault} (hw : why.AtAccess)
    (h : Ended b (.cut s why : Finish σ α) (.error (.fault f)) s' b') :
    s' = s ∧ b' = b ∧ why.Faults b f := by
  cases h with
  | abort | refusedPoll => exact hw.elim
  | refusedRead _ hr => exact ⟨rfl, hb.read hr, congrArg Prod.fst hr⟩
  | refusedWrite _ hw => exact ⟨rfl, hb.write hw, congrArg Prod.fst hw⟩

theorem Instruction.implicit_of_returns {opcode : Byte} {i : Instruction}
    (h : decode opcode = some i) (hi : i.mnemonic = .RTS ∨ i.mnemonic = .RTI) :
    i.mode = .implicit := by
  have all : ∀ j ∈ documented, j.mnemonic = .RTS ∨ j.mnemonic = .RTI → j.mode = .implicit := by
    decide +kernel
  exact all i (decode_eq_some_iff.1 h).1 hi

namespace Cpu

/-- The flags after some pops of a return. `RTI` pops the status first. -/
def flagsAfter (mnemonic : Mnemonic) (pops : List Access) (flags : Flags) : Flags :=
  match mnemonic, pops with
  | .RTI, p :: _ => Flags.ofByte p.value
  | _, _ => flags

/-- An access that is refused after the accesses `as` cuts short the instruction `i`, begun in `c`,
and leaves `c'`. There is no `i` if it is the opcode that is refused. -/
structure CutShort (c : Cpu) (i : Option Instruction) (as : List Access) (why : Cut) (c' : Cpu) :
    Prop where
  a : c'.regs.a = c.regs.a
  x : c'.regs.x = c.regs.x
  y : c'.regs.y = c.regs.y
  pc : c'.regs.pc = c.regs.pc
  pending : c'.pending = c.pending
  executed : c'.executed = c.executed
  /-- Nearly all instructions have changed no register and written nothing. -/
  plain (h : ∀ j, i = some j → j.mnemonic ≠ .JSR ∧ j.mnemonic ≠ .RTS ∧ j.mnemonic ≠ .RTI) :
    c'.regs = c.regs ∧ WritesNothing as
  /-- The stack pointer has moved if the high byte of the return address is written. -/
  call {j : Instruction} (hi : i = some j) (hj : j.mnemonic = .JSR) :
    c'.regs.flags = c.regs.flags ∧
      (WritesNothing as ∧ c'.regs.sp = c.regs.sp ∨
        ∃ reads, as = reads ++ [⟨.write, stackAddr c.regs.sp, highByte (c.lastByte j)⟩] ∧
          WritesNothing reads ∧ c'.regs.sp = c.regs.sp - 1)
  /-- The stack pointer has moved with every pop, the refused one included. -/
  returns {j : Instruction} (hi : i = some j) (hj : j.mnemonic = .RTS ∨ j.mnemonic = .RTI) :
    WritesNothing as ∧ ∃ pops, as = ⟨.read, c.regs.pc, j.opcode⟩ :: pops ∧
      pops.length < (j.mnemonic.touches c.regs none).length ∧
      pops.map Access.place = (j.mnemonic.touches c.regs none).take pops.length ∧
      c'.regs.sp = c.regs.sp + UInt8.ofNat (pops.length + 1) ∧
      why = .refusedRead (stackAddr c'.regs.sp) ∧
      c'.regs.flags = flagsAfter j.mnemonic pops c.regs.flags

theorem CutShort.kept {c c' : Cpu} {i : Option Instruction} {as : List Access} {why : Cut}
    (hregs : c'.regs = c.regs) (hp : c'.pending = c.pending) (he : c'.executed = c.executed)
    (hw : WritesNothing as)
    (hr : ∀ j, i = some j → j.mnemonic ≠ .RTS ∧ j.mnemonic ≠ .RTI) : c.CutShort i as why c' where
  a := by rw [hregs]
  x := by rw [hregs]
  y := by rw [hregs]
  pc := by rw [hregs]
  pending := hp
  executed := he
  plain _ := ⟨hregs, hw⟩
  call _ _ := ⟨by rw [hregs], .inl ⟨hw, by rw [hregs]⟩⟩
  returns hi hj := by
    rcases hj with hj | hj
    · exact absurd hj (hr _ hi).1
    · exact absurd hj (hr _ hi).2

theorem CutShort.halfCalled {c : Cpu} {opcode : Byte} {i : Instruction} (hi : i.mnemonic = .JSR)
    (reads : List Access) (hw : WritesNothing reads) (why : Cut) :
    c.CutShort (some i)
      (reads ++ [⟨.write, stackAddr c.regs.sp, highByte ((c.begun opcode i).lastByte i)⟩]) why
      ((c.begun opcode i).setSp (c.regs.sp - 1)) where
  a := rfl
  x := rfl
  y := rfl
  pc := rfl
  pending := rfl
  executed := rfl
  plain h := absurd hi (h i rfl).1
  call hj _ := by
    cases hj
    exact ⟨rfl, .inr ⟨reads, rfl, hw, rfl⟩⟩
  returns hj h := by
    cases hj
    rw [hi] at h
    simp at h

theorem CutShort.halfReturned {c : Cpu} {opcode : Byte} {i : Instruction} {mnemonic : Mnemonic}
    (hi : i.mnemonic = mnemonic) (ho : i.opcode = opcode) (hr : mnemonic = .RTS ∨ mnemonic = .RTI)
    (pops : List Access) (hl : pops.length < (mnemonic.touches c.regs none).length)
    (hp : pops.map Access.place = (mnemonic.touches c.regs none).take pops.length)
    {flags : Flags} (hf : flags = flagsAfter mnemonic pops c.regs.flags) :
    c.CutShort (some i) (⟨.read, c.regs.pc, opcode⟩ :: pops)
      (.refusedRead (stackAddr (c.regs.sp + UInt8.ofNat (pops.length + 1))))
      (((c.begun opcode i).setSp (c.regs.sp + UInt8.ofNat (pops.length + 1))).setFlags flags) where
  a := rfl
  x := rfl
  y := rfl
  pc := rfl
  pending := rfl
  executed := rfl
  plain h := by
    have other := h i rfl
    rw [hi] at other
    rcases hr with rfl | rfl <;> simp at other
  call hj h := by
    cases hj
    rw [hi] at h
    rcases hr with rfl | rfl <;> cases h
  returns hj _ := by
    cases hj
    subst hi ho
    refine ⟨?_, pops, rfl, hl, hp, rfl, rfl, hf⟩
    -- behind the fetch there are only pops
    rw [writesNothing_read]
    intro a ha
    have touched : a.place ∈ i.mnemonic.touches c.regs none := by
      refine List.mem_of_mem_take (i := pops.length) ?_
      rw [← hp]
      exact List.mem_map_of_mem ha
    rcases hr with hr | hr <;> rw [hr] at touched <;>
      simp only [Mnemonic.touches, Access.place, List.mem_cons, List.not_mem_nil, or_false,
        Prod.mk.injEq] at touched
    · rcases touched with h | h <;> exact h.1
    · rcases touched with h | h | h <;> exact h.1

theorem Falters.cutShort {c c' : Cpu} {opcode : Byte} {i : Instruction} {as : List Access}
    {target : Option Addr} {es : List Event} {why : Cut} (hd : Instruction.decode opcode = some i)
    (hl : i.mode.Lookup c.regs as target)
    (hf : Falters i (c.begun opcode i) i.mnemonic.operation es c' why) :
    c.CutShort (some i) (⟨.read, c.regs.pc, opcode⟩ :: (as ++ accesses es)) why c' := by
  have looked : WritesNothing as := by
    rw [← accesses_map_access as]
    exact hl.onlyReads.writesNothing
  -- the two returns look nothing up: their accesses behind the fetch are pops
  have returns (hi : i.mnemonic = .RTS ∨ i.mnemonic = .RTI) : as = [] :=
    hl.nil_of_implicit (Instruction.implicit_of_returns hd hi)
  have opcode_eq : i.opcode = opcode := Instruction.opcode_of_decode hd
  generalize hop : i.mnemonic.operation = op at hf
  cases hf with
  | plain hstack hes _ =>
    refine .kept rfl rfl rfl ?_ fun j hj => ?_
    · rw [writesNothing_read, writesNothing_append]
      exact ⟨looked, hes.writesNothing⟩
    · cases hj
      refine ⟨fun hi => ?_, fun hi => ?_⟩ <;>
      · rw [← hop, hi] at hstack
        cases hstack
  | callHigh =>
    have hi := (Mnemonic.operation_eq_iff .JSR rfl).1 hop
    refine .kept rfl rfl rfl ?_ fun j hj => ?_
    · rw [writesNothing_read, accesses_nil, List.append_nil]
      exact looked
    · cases hj
      rw [hi]
      decide
  | callLow =>
    have hi := (Mnemonic.operation_eq_iff .JSR rfl).1 hop
    exact .halfCalled hi (⟨.read, c.regs.pc, opcode⟩ :: as)
      ((writesNothing_read _ _ _).2 looked) _
  | retLow =>
    have hi := (Mnemonic.operation_eq_iff .RTS rfl).1 hop
    rw [returns (.inl hi)]
    exact .halfReturned hi opcode_eq (.inl rfl) [] (by simp [Mnemonic.touches]) rfl rfl
  | retHigh lo =>
    have hi := (Mnemonic.operation_eq_iff .RTS rfl).1 hop
    rw [returns (.inl hi)]
    exact .halfReturned hi opcode_eq (.inl rfl) [⟨.read, _, lo⟩]
      (by simp [Mnemonic.touches]) rfl rfl
  | returnStatus =>
    have hi := (Mnemonic.operation_eq_iff .RTI rfl).1 hop
    rw [returns (.inr hi)]
    exact .halfReturned hi opcode_eq (.inr rfl) [] (by simp [Mnemonic.touches]) rfl rfl
  | returnLow p =>
    have hi := (Mnemonic.operation_eq_iff .RTI rfl).1 hop
    rw [returns (.inr hi)]
    exact .halfReturned hi opcode_eq (.inr rfl) [⟨.read, _, p⟩] (by simp [Mnemonic.touches]) rfl rfl
  | returnHigh p lo =>
    have hi := (Mnemonic.operation_eq_iff .RTI rfl).1 hop
    rw [returns (.inr hi)]
    exact .halfReturned hi opcode_eq (.inr rfl) [⟨.read, _, p⟩, ⟨.read, _, lo⟩]
      (by simp [Mnemonic.touches]) rfl rfl

theorem Course.cutShort {c c' : Cpu} {es : List Event} {why : Cut} (h : Course c es (.cut c' why))
    (hw : why.AtAccess) :
    (es = [] ∧ c' = c ∧ why = .refusedRead c.regs.pc) ∨
      ∃ opcode rest, es = .access ⟨.read, c.regs.pc, opcode⟩ :: rest ∧
        c.CutShort (Instruction.decode opcode) (accesses es) why c' := by
  cases h with
  | unfetched => exact .inl ⟨rfl, rfl, rfl⟩
  | undocumented _ | unsupported _ _ _ => exact hw.elim
  | @unresolved opcode i hd hm es hes addr =>
    refine .inr ⟨opcode, es, rfl, .kept rfl rfl rfl ?_ fun j hj => ?_⟩
    · rw [accesses_access, writesNothing_read]
      exact hes.writesNothing
    · have notImplicit := mt (Instruction.implicit_of_returns hj)
      rw [hd] at hj
      cases hj
      exact not_or.1 (notImplicit hm)
  | @faltered opcode i hd as target hl es c' why hf =>
    refine .inr ⟨opcode, _, rfl, ?_⟩
    rw [hd, accesses_access, accesses_append, accesses_map_access]
    exact hf.cutShort hd hl

end Cpu

namespace Machine

variable {β ω : Type} [Bus β]

def upcoming (m : Machine β ω) : Option Instruction :=
  match (Bus.read m.bus m.cpu.regs.pc).1 with
  | .ok opcode => Instruction.decode opcode
  | .error _ => none

/-- The bus cuts the instruction of `m` short with the fault `f`, which leaves `m'`. -/
structure CutShort (m : Machine β ω) (f : Fault) (m' : Machine β ω) : Prop where
  others : m' = { m with cpu := m'.cpu, bus := m'.bus }
  /-- What the bus holds changes by the accesses before the one that faults. -/
  accesses : ∃ as why, Serves m.bus as m'.bus ∧ why.Faults m'.bus f ∧
    m.cpu.CutShort m.upcoming as why m'.cpu ∧
    ∀ cell, Bus.Holds cell → cell m'.bus = stored (cell m.bus) as

variable [Observer ω]

theorem step_cutShort (hb : Bus.FaultsFirst β) {m : Machine β ω} {f : Fault}
    (hi : m.instruct.outcome = .error (.fault f)) :
    m.step.1 = .error (.fault f) ∧ m.CutShort f m.step.2 := by
  obtain ⟨o, b, course, ha, ended, -⟩ := m.cpu.instruction_ensures.on m.bus
  change Finish.Ended b o m.instruct.outcome m.instruct.state m.instruct.bus at ended
  rw [hi] at ended
  rw [step_of_failed hi]
  refine ⟨rfl, rfl, ?_⟩
  generalize Cpu.instruction.events m.cpu m.bus = es at course ha
  generalize m.instruct.state = c' at ended ⊢
  generalize m.instruct.bus = b' at ended ⊢
  cases o with
  | done _ _ => cases ended
  | cut s why =>
    -- no instruction faults of its own accord, so it was the bus
    have refused : why.AtAccess := by
      cases course with
      | unfetched | unresolved => trivial
      | undocumented | unsupported => cases ended
      | faltered _ _ hf => exact hf.atAccess
    obtain ⟨rfl, rfl, faults⟩ := ended.faulted hb refused
    refine ⟨accesses es, why, ha.serves course.unpolled, faults, ?_, fun cell hc => hc.answered ha⟩
    -- the fetch was refused, or something behind it
    rcases course.cutShort refused with ⟨rfl, rfl, rfl⟩ | ⟨opcode, rest, rfl, cut⟩
    · cases ha
      have none : m.upcoming = none := by
        unfold upcoming
        rw [show (Bus.read m.bus m.cpu.regs.pc).1 = .error f from faults]
      rw [none]
      exact .kept rfl rfl rfl (by simp) (by simp)
    · have fetched : m.upcoming = Instruction.decode opcode := by
        unfold upcoming
        rw [ha.first_read]
      rw [fetched]
      exact cut

/-- When a run comes to an instruction that the bus cuts short, it ends there, and says where that
instruction began. -/
theorem fault_cuts_short (hb : Bus.FaultsFirst β) {m : Machine β ω} {f : Fault}
    (hm : m.stop = false) (hi : m.instruct.outcome = .error (.fault f)) :
    ∃ m', m.CutShort f m' ∧
      let e := ExecError.internalFault m'.cpu.fetched m.cpu.regs.pc f.message
      (∀ {m₀ : Machine β ω} {k count : Nat}, Advances k { m₀ with stop := false } m → k < count →
        m₀.runFor count = (.error e, m')) ∧
      ∀ {m₀ : Machine β ω} {addr : Addr} {k fuel : Nat}, Advances k (m₀.startAt addr) m →
        k < fuel → (m₀.startAt addr).resume fuel = .ended (.error e) (m'.log (.failed e)) := by
  obtain ⟨fails, cut⟩ := step_cutShort hb hi
  have guarded : m.guardedStep =
      (.error (.internalFault m.step.2.cpu.fetched m.cpu.regs.pc f.message), m.step.2) := by
    have stepped : m.step = (.error (.fault f), m.step.2) := by rw [← fails]
    rw [guardedStep, stepped]
  refine ⟨m.step.2, cut, fun {m₀ k count} adv hk => ?_, fun {m₀ addr k fuel} adv hk => ?_⟩
  · exact adv.runFor_of_error hk hm guarded
  · obtain ⟨rest, rfl⟩ := Nat.exists_eq_add_of_lt hk
    rw [Nat.add_assoc, adv.resume, resume, hm, guarded]
    rfl

/-- `NOP`, and then a call that can push only the high byte of its return address. -/
def calling : Machine (Guarded Memory) Empty where
  cpu := { regs := { pc := 0x8000 } }
  bus := {
    bus := ((Memory.zero.write 0x8000 0xEA).write 0x8001 0x20).write 0x8003 0x12
    rules := [⟨.write, 0x01FC, 0x01FC, .text "stack"⟩] }

theorem calling_is_cut_short :
    (∃ m', calling.step.2.CutShort (.text "stack") m' ∧
      calling.runFor 5 = (.error (.internalFault m'.cpu.fetched 0x8001 "stack"), m')) ∧
    ∃ m' : Machine (Guarded Memory) Empty,
      (calling.startAt 0x8001).CutShort (.text "stack") m' ∧
      let e := ExecError.internalFault m'.cpu.fetched 0x8001 "stack"
      (calling.startAt 0x8001).resume 5 = .ended (.error e) (m'.log (.failed e)) := by
  constructor
  · obtain ⟨m', cut, run, -⟩ := fault_cuts_short (Guarded.faultsFirst Memory.faultsFirst)
      (m := calling.step.2) (f := .text "stack") rfl rfl
    have advances : Advances 1 { calling with stop := false } calling.step.2 :=
      .step rfl rfl (.refl _)
    exact ⟨m', cut, run advances (by decide)⟩
  · obtain ⟨m', cut, -, resume⟩ := fault_cuts_short (Guarded.faultsFirst Memory.faultsFirst)
      (m := calling.startAt 0x8001) (f := .text "stack") rfl rfl
    exact ⟨m', cut, resume (.refl _) (by decide)⟩

end Machine

end Mos6502
