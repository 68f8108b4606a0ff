import Mos6502.Observer.Watch
import Mos6502.Proofs.Refusal
import Mos6502.Proofs.Simulation
import Mos6502.Proofs.Unobserved

namespace Mos6502

theorem Mnemonic.supported_eq_false {m : Mnemonic} :
    m.supported = false ↔ m ∈ [.BIT, .PHA, .PHP, .PLA, .PLP] := by
  cases m <;> decide

/-- How an instruction ends that is fetched as `opcode` at `pc`, if nothing faults. -/
def Cpu.verdict (opcode : Byte) (pc : Addr) : Except Abort Unit :=
  match Instruction.decode opcode with
  | none => .error (.error (.undocumented opcode pc))
  | some i => if i.mnemonic.supported then .ok () else .error (.error (.notImplemented i pc))

namespace Cpu

variable {opcode : Byte} {pc : Addr} {i : Instruction}

theorem Refuses.verdict {c c' : Cpu} {e : ExecError} (h : c.Refuses opcode e c') :
    Cpu.verdict opcode c.regs.pc = .error (.error e) := by
  unfold Cpu.verdict
  cases h with
  | undocumented hd => rw [hd]
  | notImplemented hd hs => simp [hd, hs]

theorem verdict_of_supported (hd : Instruction.decode opcode = some i)
    (hs : i.mnemonic.supported = true) : verdict opcode pc = .ok () := by
  simp [verdict, hd, hs]

theorem verdict_eq_undocumented {opcode' : Byte} {pc' : Addr} :
    verdict opcode pc = .error (.error (.undocumented opcode' pc')) ↔
      opcode' = opcode ∧ pc' = pc ∧ Instruction.decode opcode = none := by
  unfold verdict
  split <;> rename_i hd
  · simp [hd, eq_comm]
  · split <;> simp [hd]

theorem verdict_eq_notImplemented {pc' : Addr} :
    verdict opcode pc = .error (.error (.notImplemented i pc')) ↔
      pc' = pc ∧ Instruction.decode opcode = some i ∧ i.mnemonic.supported = false := by
  constructor
  · intro h
    unfold verdict at h
    split at h
    · cases h
    · rename_i j hd
      split at h
      · cases h
      · rename_i hs
        cases h
        exact ⟨rfl, hd, by simpa using hs⟩
  · rintro ⟨rfl, hd, hs⟩
    simp [verdict, hd, hs]

theorem verdict_eq_ok : verdict opcode pc = .ok () ↔
    ∃ i, Instruction.decode opcode = some i ∧ i.mnemonic.supported = true := by
  unfold verdict
  split <;> rename_i hd
  · simp [hd]
  · split <;> rename_i hs <;> simp [hd, hs]

theorem isRefusal_of_verdict {why : Abort} (h : verdict opcode pc = .error why) :
    ∃ e, why = .error e ∧ e.IsRefusal := by
  unfold verdict at h
  split at h
  · cases h
    exact ⟨_, rfl, trivial⟩
  · split at h
    · cases h
    · cases h
      exact ⟨_, rfl, trivial⟩

end Cpu

namespace Machine

theorem observers_begin {β ω : Type} (m : Machine β ω) : m.begin.observers = m.observers :=
  (congrArg Engine.observers (same_begin m).engine :)

variable {β ω : Type} [Bus β] [Observer ω]

/-- Neither the bus nor an observer ever faults. -/
structure Faultless (m : Machine β ω) : Prop where
  bus : Bus.NeverFaults m.bus
  observers : ∀ o ∈ m.observers, Observer.NeverFaults o

namespace Faultless

variable {m m' : Machine β ω}

theorem of_eq (h : m.Faultless) (hb : m'.bus = m.bus) (ho : m'.observers = m.observers) :
    m'.Faultless where
  bus := by
    rw [hb]
    exact h.bus
  observers := by
    rw [ho]
    exact h.observers

theorem same (h : m.Faultless) (hs : Same m m') : m'.Faultless :=
  h.of_eq hs.bus (congrArg Engine.observers hs.engine)

theorem unstopped (h : m.Faultless) : Faultless { m with stop := false } := h.of_eq rfl rfl

theorem step (h : m.Faultless) : m.step.2.Faultless where
  bus := by
    obtain ⟨es, -, answered⟩ := step_traced h.bus
    exact Bus.NeverFaults.later h.bus answered
  observers := (step_keeps Observer.keeps_neverFaults h.bus h.observers).2

theorem advances {k : Nat} (h : m.Faultless) (adv : Advances k m m') : m'.Faultless := by
  induction adv with
  | refl => exact h
  | step _ hs _ ih =>
    have next := h.step
    rw [hs] at next
    exact ih next

theorem step_verdict (h : m.Faultless) : ∃ opcode,
    (Bus.read m.bus m.cpu.regs.pc).1 = .ok opcode ∧
      m.step.1 = Cpu.verdict opcode m.cpu.regs.pc := by
  cases hi : m.instruct.outcome with
  | error why =>
    obtain ⟨course, answered⟩ := m.cpu.instruction_ensures.on_abort h.bus hi
    obtain ⟨e, rfl⟩ := course.error_of_abort
    obtain ⟨opcode, rest, fetches, -, refuses⟩ := course.refuses
    rw [fetches] at answered
    exact ⟨opcode, answered.first_read, by rw [step_of_failed hi, refuses.verdict]⟩
  | ok view =>
    obtain ⟨opcode, fetched, hd, -⟩ := fetched_of_instruct hi
    refine ⟨opcode, fetched, ?_⟩
    rw [Cpu.verdict_of_supported hd (m.cpu.instruction_ensures.on_ok hi).1.supported]
    -- behind an instruction that completes, only a fault could still cut the step short
    have unfaulted := (step_keeps Observer.keeps_neverFaults h.bus h.observers).1
    rcases ho : m.step.1 with (f | e) | _
    · exact absurd ho (unfaulted f)
    · rw [instruct_of_step_eq_error ho] at hi
      cases hi
    · rfl

theorem guardedStep_eq_error (h : m.Faultless) {e : ExecError}
    (hg : m.guardedStep = (.error e, m')) : m.step = (.error (.error e), m') ∧ e.IsRefusal := by
  obtain ⟨opcode, -, outcome⟩ := h.step_verdict
  unfold guardedStep at hg
  rcases hs : m.step with ⟨why | _, m₁⟩
  · rw [hs] at outcome hg
    obtain ⟨e', rfl, refusal⟩ := Cpu.isRefusal_of_verdict outcome.symm
    cases hg
    exact ⟨rfl, refusal⟩
  · rw [hs] at hg
    cases hg

theorem of_guardedStep_eq_error (h : m.Faultless) {e : ExecError}
    (hg : m.guardedStep = (.error e, m')) : m'.Faultless := by
  have next := h.step
  rw [(h.guardedStep_eq_error hg).1] at next
  exact next

theorem refusal_of_runFor (h : m.Faultless) {count : Nat} {e : ExecError}
    (hr : m.runFor count = (.error e, m')) : e.IsRefusal := by
  obtain ⟨k, -, m₁, adv, -, failed⟩ := runFor_eq_error hr
  exact ((h.unstopped.advances adv).guardedStep_eq_error failed).2

theorem refusal_of_resume (h : m.Faultless) {fuel : Nat} {e : ExecError}
    (hr : m.resume fuel = .ended (.error e) m') : e.IsRefusal := by
  obtain ⟨k, m₁, adv, stands⟩ := resumed fuel m
  rw [hr] at stands
  cases stands with
  | failed _ _ failed => exact ((h.advances adv).guardedStep_eq_error failed).2

theorem runFor (h : m.Faultless) (count : Nat) : (m.runFor count).2.Faultless := by
  obtain ⟨k, m₁, adv, ends⟩ := ran count m
  have reached := h.unstopped.advances adv
  generalize m.runFor count = r at ends
  cases ends with
  | completed => exact reached
  | failed _ _ failed => exact reached.of_guardedStep_eq_error failed

theorem resume (h : m.Faultless) (fuel : Nat) : (m.resume fuel).machine.Faultless := by
  obtain ⟨k, m₁, adv, stands⟩ := resumed fuel m
  have reached := h.advances adv
  generalize m.resume fuel = s at stands
  cases stands with
  | running => exact reached
  | stopped => exact reached.same (Same.log m₁ _)
  | failed _ _ failed => exact (reached.of_guardedStep_eq_error failed).same (Same.log _ _)

theorem begin (h : m.Faultless) : m.begin.Faultless :=
  h.of_eq (same_begin m).bus (observers_begin m)

theorem startAt (h : m.Faultless) (addr : Addr) : (m.startAt addr).Faultless :=
  (h.of_eq rfl rfl : (m.modifyRegs (·.setPc addr)).Faultless).begin

theorem service (h : m.Faultless) : ∃ m₁, m.performCpu Cpu.service = (.ok (), m₁) ∧
    m₁.Faultless ∧ m₁.observers = m.observers := by
  have completes := Cpu.service_of_neverFaults m.cpu h.bus
  obtain ⟨m₁, performed, engine, bus⟩ := performCpu_of_ok completes
  have answered := ((Cpu.service_ensures m.cpu).on_ok completes).2
  refine ⟨m₁, performed, ⟨?_, ?_⟩, ?_⟩
  · rw [bus]
    exact Bus.NeverFaults.later h.bus answered
  · rw [engine]
    exact h.observers
  · rw [engine]

theorem reset (h : m.Faultless) : ∃ m₁, m.performCpu Cpu.reset = (.ok (), m₁) ∧
    m₁.Faultless ∧ m₁.observers = m.observers := by
  rw [performCpu_reset]
  exact (h.of_eq rfl rfl : (m.modifyCpu (Cpu.latch (some .reset))).Faultless).service

theorem start (h : m.Faultless) : ∃ m₁, m.performCpu Cpu.reset = (.ok (), m₁) ∧
    m.start = (.ok (), m₁.begin) ∧ m₁.Faultless ∧ m₁.observers = m.observers := by
  obtain ⟨m₁, performed, faultless, observers⟩ := h.reset
  refine ⟨m₁, performed, ?_, faultless, observers⟩
  rw [Machine.start, performed]

end Faultless

/-- On plain memory the opcode at the program counter decides how a step ends, and so no run of either
kind, however long, fails but at an instruction that is turned down. -/
theorem only_refusals_on_plain_memory {m : Machine Memory ω}
    (ho : ∀ o ∈ m.observers, Observer.NeverFaults o) :
    let opcode := m.bus.read m.cpu.regs.pc
    let pc := m.cpu.regs.pc
    let unsupported : List Mnemonic := [.BIT, .PHA, .PHP, .PLA, .PLP]
    Instruction.documented.length = 151 ∧ (Instruction.documented.map (·.opcode)).Nodup ∧
    (∀ opcode' pc', m.step.1 = .error (.error (.undocumented opcode' pc')) ↔
      opcode' = opcode ∧ pc' = pc ∧ ∀ i ∈ Instruction.documented, i.opcode ≠ opcode) ∧
    (∀ i pc', m.step.1 = .error (.error (.notImplemented i pc')) ↔
      pc' = pc ∧ i ∈ Instruction.documented ∧ i.opcode = opcode ∧ i.mnemonic ∈ unsupported) ∧
    (m.step.1 = .ok () ↔
      ∃ i ∈ Instruction.documented, i.opcode = opcode ∧ i.mnemonic ∉ unsupported) ∧
    (∀ why, m.step.1 = .error why → ∃ e, why = .error e ∧ e.IsRefusal) ∧
    (∀ count e m', m.runFor count = (.error e, m') → e.IsRefusal) ∧
    (∀ addr fuel e m', (m.startAt addr).resume fuel = .ended (.error e) m' → e.IsRefusal) ∧
    ∃ m₁, m.start = (.ok (), m₁) ∧
      ∀ fuel e m', m₁.resume fuel = .ended (.error e) m' → e.IsRefusal := by
  have faultless : m.Faultless := ⟨Memory.neverFaults, ho⟩
  obtain ⟨opcode, fetched, outcome⟩ := faultless.step_verdict
  obtain rfl : m.bus.read m.cpu.regs.pc = opcode := Except.ok.inj fetched
  obtain ⟨m₁, -, started, faultless₁, -⟩ := faultless.start
  refine ⟨Instruction.documented_length, Instruction.documented_opcodes_nodup, ?_, ?_, ?_, ?_,
    fun count e m' => faultless.refusal_of_runFor,
    fun addr fuel e m' => (faultless.startAt addr).refusal_of_resume,
    m₁.begin, started, fun fuel e m' => faultless₁.begin.refusal_of_resume⟩
  · intro opcode' pc'
    rw [outcome, Cpu.verdict_eq_undocumented, Instruction.decode_eq_none_iff]
  · intro i pc'
    rw [outcome, Cpu.verdict_eq_notImplemented, Instruction.decode_eq_some_iff,
      Mnemonic.supported_eq_false, and_assoc]
  · rw [outcome, Cpu.verdict_eq_ok]
    simp only [Instruction.decode_eq_some_iff, ← Mnemonic.supported_eq_false, and_assoc,
      Bool.not_eq_false]
  · intro why failed
    rw [outcome] at failed
    exact Cpu.isRefusal_of_verdict failed

/-- `LDA #$02` and `STA $8005`, which turns the `NOP` behind it into an opcode that is not documented. -/
def selfModifying : Machine Memory Recorder where
  cpu := { regs := { pc := 0x8000 } }
  bus := Memory.zero.store 0x8000 [0xA9, 0x02, 0x8D, 0x05, 0x80, 0xEA]
  observers := [{ name := "trace" }]

theorem selfModifying_fails :
    selfModifying.step.1 = .ok () ∧
    (selfModifying.runFor 5).1 = .error (.undocumented 0x02 0x8005) ∧
    (ExecError.undocumented 0x02 0x8005).IsRefusal := by
  have safe : ∀ o ∈ selfModifying.observers, Observer.NeverFaults o := fun o _ =>
    ⟨fun _ => True, fun _ _ _ _ _ => trivial, trivial⟩
  obtain ⟨-, -, -, -, completes, -, runs, -⟩ := only_refusals_on_plain_memory safe
  have loads : (⟨0xA9, .LDA, .immediate⟩ : Instruction) ∈ Instruction.documented := by decide
  refine ⟨completes.2 ⟨_, loads, rfl, by decide⟩, rfl, ?_⟩
  exact runs 5 _ (selfModifying.runFor 5).2 rfl

end Machine

end Mos6502
