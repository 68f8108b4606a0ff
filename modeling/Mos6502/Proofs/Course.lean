import Mos6502.Proofs.Perform

namespace Mos6502

theorem Instruction.eq_of_rti {opcode : Byte} {i : Instruction} (h : decode opcode = some i)
    (hi : i.mnemonic = .RTI) : i = ⟨0x40, .RTI, .implicit⟩ := by
  have all : ∀ j ∈ documented, j.mnemonic = .RTI → j = ⟨0x40, .RTI, .implicit⟩ := by
    decide +kernel
  exact all i (decode_eq_some_iff.1 h).1 hi

namespace Cpu

/-- The state in which instruction `i`, fetched as `opcode`, begins its work. -/
def begun (opcode : Byte) (i : Instruction) (c : Cpu) : Cpu := (c.fetch opcode).take i

section Fields

variable (c : Cpu) (opcode : Byte) (i : Instruction)

@[simp] theorem pending_begun : (c.begun opcode i).pending = c.pending := rfl

@[simp] theorem executed_begun : (c.begun opcode i).executed = c.executed := rfl

@[simp] theorem pending_complete : (c.complete i).pending = c.pending := by
  unfold complete advance; split <;> rfl

@[simp] theorem current_complete : (c.complete i).current = c.current := by
  unfold complete advance; split <;> rfl

@[simp] theorem executed_complete : (c.complete i).executed = c.executed + 1 := by
  unfold complete advance; split <;> rfl

end Fields

def view (i : Instruction) (c : Cpu) : View := ⟨c.regs, i, c.executed⟩

/-- How an instruction can go from the state `c`. -/
inductive Course (c : Cpu) : Post Cpu View
  | unfetched : Course c [] (.cut c (.refusedRead c.regs.pc))
  | undocumented {opcode : Byte} (hd : Instruction.decode opcode = none) :
      Course c [.access ⟨.read, c.regs.pc, opcode⟩]
        (.cut (c.fetch opcode) (.abort (.error (.undocumented opcode c.regs.pc))))
  | unresolved {opcode : Byte} {i : Instruction} (hd : Instruction.decode opcode = some i)
      (hm : i.mode ≠ .implicit) {es : List Event} (hes : OnlyReads es) (addr : Addr) :
      Course c (.access ⟨.read, c.regs.pc, opcode⟩ :: es)
        (.cut (c.begun opcode i) (.refusedRead addr))
  | unsupported {opcode : Byte} {i : Instruction} (hd : Instruction.decode opcode = some i)
      {as : List Access} {target : Option Addr} (hl : i.mode.Lookup c.regs as target)
      (hop : i.mnemonic.operation = .unsupported) :
      Course c (.access ⟨.read, c.regs.pc, opcode⟩ :: as.map .access)
        (.cut (c.begun opcode i) (.abort (.error (.notImplemented i c.regs.pc))))
  | faltered {opcode : Byte} {i : Instruction} (hd : Instruction.decode opcode = some i)
      {as : List Access} {target : Option Addr} (hl : i.mode.Lookup c.regs as target)
      {es : List Event} {c' : Cpu} {why : Cut}
      (hf : Falters i (c.begun opcode i) i.mnemonic.operation es c' why) :
      Course c (.access ⟨.read, c.regs.pc, opcode⟩ :: (as.map .access ++ es)) (.cut c' why)
  | completed {opcode : Byte} {i : Instruction} (hd : Instruction.decode opcode = some i)
      {as : List Access} {target : Option Addr} (hl : i.mode.Lookup c.regs as target)
      {es : List Event} {c' : Cpu}
      (hp : Performs i target (c.begun opcode i) i.mnemonic.operation es c') :
      Course c
        (.access ⟨.read, c.regs.pc, opcode⟩ :: (as.map .access ++
          (es ++ [.note (.log (.completed c.regs.pc i (c'.complete i).regs))])))
        (.done (c'.complete i) ((c'.complete i).view i))

theorem Course.of_done {c c' : Cpu} {es : List Event} {view : View}
    (h : Course c es (.done c' view)) : ∃ opcode rest,
      es = .access ⟨.read, c.regs.pc, opcode⟩ :: rest ∧
      Instruction.decode opcode = some view.instruction ∧ view = c'.view view.instruction ∧
      c'.pending =
        c.pending.or (if view.instruction.mnemonic = .BRK then some .brk else none) := by
  cases h with
  | @completed opcode i hd as target hl fs c₁ hp =>
    have isBrk : i.mnemonic.operation = .brk ↔ i.mnemonic = .BRK :=
      Mnemonic.operation_eq_iff .BRK rfl
    have latched := hp.pending
    simp only [isBrk, pending_begun] at latched
    exact ⟨opcode, _, rfl, hd, rfl, by rw [pending_complete, latched]; rfl⟩

theorem Course.current {c c' : Cpu} {es : List Event} {view : View}
    (h : Course c es (.done c' view)) : c'.current = some view.instruction := by
  cases h with
  | @completed opcode i _ _ _ _ _ c₁ hp =>
    rw [current_complete, hp.current]
    rfl

theorem Course.supported {c c' : Cpu} {es : List Event} {view : View}
    (h : Course c es (.done c' view)) : view.instruction.mnemonic.supported = true := by
  cases h with
  | completed _ _ hp => exact bne_iff_ne.2 hp.ne_unsupported

theorem Course.notes_of_cut {c c' : Cpu} {es : List Event} {why : Cut}
    (h : Course c es (.cut c' why)) : notes es = [] := by
  cases h with
  | unfetched => rfl
  | undocumented _ => rfl
  | unresolved _ _ hes _ => exact hes.notes
  | unsupported _ _ _ => simp
  | faltered _ _ hf => simp [hf.notes]

theorem Course.unpolled {c : Cpu} {es : List Event} {o : Finish Cpu View} (h : Course c es o) :
    Unpolled es := by
  cases h with
  | unfetched => simp
  | undocumented _ => simp
  | unresolved _ _ hes _ => simpa using hes.unpolled
  | unsupported _ _ _ => simp
  | faltered _ _ hf => simpa using hf.unpolled
  | completed _ _ hp => simpa using hp.unpolled

theorem Course.pending_of_cut {c c' : Cpu} {es : List Event} {why : Cut}
    (h : Course c es (.cut c' why)) : c'.pending = c.pending := by
  cases h with
  | faltered _ _ hf => exact hf.pending
  | _ => rfl

/-- An instruction does not fault of its own accord. -/
theorem Course.error_of_abort {c c' : Cpu} {es : List Event} {why : Abort}
    (h : Course c es (.cut c' (.abort why))) : ∃ e, why = .error e := by
  cases h with
  | undocumented | unsupported => exact ⟨_, rfl⟩
  | faltered _ _ hf => exact absurd rfl (hf.ne_abort why)

/-- Only an `RTI` that has popped the status can be cut short with other flags than before. -/
theorem Course.flags_of_cut {c c' : Cpu} {es : List Event} {why : Cut}
    (h : Course c es (.cut c' why)) : c'.regs.flags = c.regs.flags ∨ ∃ p rest,
      es = .access ⟨.read, c.regs.pc, 0x40⟩ ::
        .access ⟨.read, stackAddr (c.regs.sp + 1), p⟩ :: rest := by
  cases h with
  | @faltered opcode i hd as target hl fs _ _ hf =>
    have returning (h : i.mnemonic.operation = Mnemonic.RTI.operation) : opcode = 0x40 ∧ as = [] := by
      have rti := (Mnemonic.operation_eq_iff .RTI rfl).1 h
      obtain rfl := Instruction.eq_of_rti hd rti
      exact ⟨(Instruction.opcode_of_decode hd).symm, hl.nil_of_implicit rfl⟩
    generalize hop : i.mnemonic.operation = op at hf
    cases hf with
    | returnLow p | returnHigh p =>
      obtain ⟨rfl, rfl⟩ := returning hop
      exact .inr ⟨p, _, rfl⟩
    | _ => exact .inl rfl
  | _ => exact .inl rfl

theorem instruction_ensures (c : Cpu) : instruction.Ensures c (Course c) := by
  unfold instruction
  simp only [Micro.ensures_bind, Micro.ensures_get, Micro.ensures_read, Micro.ensures_modify,
    Finish.then_done, Finish.then_cut, List.nil_append]
  refine ⟨.unfetched, fun opcode => ?_⟩
  cases hd : Instruction.decode opcode with
  | none =>
    rw [Micro.ensures_fail]
    exact .undocumented hd
  | some i =>
    simp only [Micro.ensures_bind, Micro.ensures_get, Micro.ensures_modify, Micro.ensures_log,
      Micro.ensures_pure, Finish.then_done, List.nil_append, List.cons_append]
    refine (i.mode.resolve_ensures _ _).mono fun es o resolving => ?_
    cases resolving with
    | refused hm hes addr => exact .unresolved hd hm hes addr
    | @found as target hl =>
      rw [Finish.then_done]
      -- a target that is needed has been found, by the table of instructions
      have ht : i.needsTarget → target.isSome := fun h =>
        hl.isSome_target.trans (Instruction.hasAddress_of_needsTarget hd h)
      replace hl : i.mode.Lookup c.regs as target := hl
      refine (execute_ensures i target (c.begun opcode i) ht).mono fun fs o executing => ?_
      cases executing with
      | performed hp =>
        rw [Finish.then_done]
        exact .completed hd hl hp
      | refused hf =>
        rw [Finish.then_cut]
        exact .faltered hd hl hf
      | unsupported hop =>
        rw [Finish.then_cut, List.append_nil]
        exact .unsupported hd hl hop

end Cpu

end Mos6502
