import Mos6502.Proofs.Runs

namespace Mos6502

def ExecError.IsRefusal : ExecError → Prop
  | .undocumented .. | .notImplemented .. => True
  | _ => False

namespace Cpu

/-- `c` has fetched `opcode` and turns it down with an error, which leaves a trace in two places
only. -/
inductive Refuses (c : Cpu) (opcode : Byte) : ExecError → Cpu → Prop
  | undocumented (hd : Instruction.decode opcode = none) :
      Refuses c opcode (.undocumented opcode c.regs.pc) { c with fetched := opcode }
  | notImplemented {i : Instruction} (hd : Instruction.decode opcode = some i)
      (hs : i.mnemonic.supported = false) :
      Refuses c opcode (.notImplemented i c.regs.pc) { c with fetched := opcode, current := some i }

theorem Refuses.regs {c c' : Cpu} {opcode : Byte} {e : ExecError} (h : c.Refuses opcode e c') :
    c'.regs = c.regs := by
  cases h <;> rfl

theorem Refuses.again {c c' c'' : Cpu} {opcode : Byte} {e : ExecError} (h : c.Refuses opcode e c')
    (h' : c'.Refuses opcode e c'') : c'' = c' := by
  cases h <;> cases h' <;> rfl

theorem Refuses.error_eq {c c' d d' : Cpu} {opcode : Byte} {e e' : ExecError}
    (h : c.Refuses opcode e c') (h' : d.Refuses opcode e' d') (hpc : c.regs.pc = d.regs.pc) :
    e = e' := by
  cases h with
  | undocumented hd =>
    cases h' with
    | undocumented _ => rw [hpc]
    | notImplemented hd' _ =>
      rw [hd] at hd'
      cases hd'
  | notImplemented hd _ =>
    cases h' with
    | undocumented hd' =>
      rw [hd] at hd'
      cases hd'
    | notImplemented hd' _ =>
      rw [hd] at hd'
      cases hd'
      rw [hpc]

theorem Course.refuses {c c' : Cpu} {es : List Event} {e : ExecError}
    (h : Course c es (.cut c' (.abort (.error e)))) : ∃ opcode rest,
      es = .access ⟨.read, c.regs.pc, opcode⟩ :: rest ∧ OnlyReads es ∧ c.Refuses opcode e c' := by
  cases h with
  | @undocumented opcode hd => exact ⟨opcode, [], rfl, by simp, .undocumented hd⟩
  | @unsupported opcode i hd as target hl hop =>
    refine ⟨opcode, _, rfl, ?_, .notImplemented hd (bne_eq_false_iff_eq.2 hop)⟩
    rw [onlyReads_read]
    exact hl.onlyReads
  | faltered _ _ hf => exact absurd rfl (hf.ne_abort _)

end Cpu

/-- A step that ends with an error of the processor has read from the bus and done nothing else: no
observer was told, and the line was not polled. -/
theorem Engine.step_onlyReads {ω : Type} [Observer ω] (e : Engine ω) :
    step.Ensures e fun es o => ∀ s err, o = .cut s (.abort (.error err)) → OnlyReads es := by
  unfold step onCpu
  simp only [Micro.ensures_bind, Micro.ensures_within]
  refine e.cpu.instruction_ensures.mono fun es o course => ?_
  cases o with
  | cut c why =>
    intro s err h
    cases h
    obtain ⟨_, _, -, reads, -⟩ := course.refuses
    exact reads
  | done c view =>
    refine (notify_ensures view _).mono fun fs o told => ?_
    cases o with
    | cut e' why =>
      intro s err h
      cases h
      exact told.2.2.elim
    | done e' _ =>
      refine (Cpu.settle_ensures e'.cpu).mono fun gs o settling => ?_
      intro s err h
      cases o with
      | done _ _ => cases h
      | cut c' why =>
        cases h
        exact absurd rfl (settling.ne_abort _)

namespace Machine

variable {β ω : Type} [Bus β] [Observer ω]

def observedBy {ω' : Type} (observers : List ω') (m : Machine β ω) : Machine β ω' :=
  { m with observers }

/-- `m` turns an instruction down with the error `e` and becomes `m'`. -/
structure Refused (m : Machine β ω) (e : ExecError) (m' : Machine β ω) : Prop where
  /-- Nothing changes but what was fetched last, and the current instruction if there is one. -/
  unchanged : ∃ opcode cpu, (Bus.read m.bus m.cpu.regs.pc).1 = .ok opcode ∧
    m.cpu.Refuses opcode e cpu ∧ m' = { m with cpu }
  /-- The bus is read and nothing else: the line is not polled. -/
  onlyReads : OnlyReads (Engine.step.events m.toEngine m.bus)
  /-- Whoever observes does not matter. -/
  unobserved {ω' : Type} [Observer ω'] (observers : List ω') :
    (m.observedBy observers).step = (.error (.error e), m'.observedBy observers)

theorem refused_of_step (hq : Bus.Quiet β) {m m' : Machine β ω} {e : ExecError}
    (h : m.step = (.error (.error e), m')) : m.Refused e m' := by
  have hi : m.instruct.outcome = .error (.error e) := instruct_of_step_eq_error (by rw [h])
  obtain ⟨course, ha⟩ := m.cpu.instruction_ensures.on_error hi
  obtain ⟨opcode, rest, hes, reads, refuses⟩ := course.refuses
  have same : m.instruct.bus = m.bus := hq.answered ha reads.onlyLooks
  have left : m' = { m with cpu := m.instruct.state } := by
    rw [step_of_failed hi, same] at h
    exact (congrArg Prod.snd h).symm
  refine ⟨⟨opcode, m.instruct.state, ?_, refuses, left⟩, ?_, fun observers => ?_⟩
  · rw [hes] at ha
    exact ha.first_read
  · have ho : (Engine.step.on m.toEngine m.bus).outcome = .error (.error e) := congrArg Prod.fst h
    exact ((Engine.step_onlyReads m.toEngine).on_error ho).1 _ _ rfl
  · have hi' : (m.observedBy observers).instruct.outcome = .error (.error e) := hi
    rw [step_of_failed hi', left]
    show (_, ({ m.observedBy observers with
      cpu := m.instruct.state
      bus := m.instruct.bus } : Machine β _)) = _
    rw [same]
    rfl

theorem step_of_refuses {m : Machine β ω} (hf : Bus.NeverFaults m.bus) {opcode : Byte}
    {e : ExecError} {c c' : Cpu} (hr : (Bus.read m.bus m.cpu.regs.pc).1 = .ok opcode)
    (h : c.Refuses opcode e c') (hpc : m.cpu.regs.pc = c.regs.pc) :
    m.step.1 = .error (.error e) := by
  have first {opcode' : Byte} {rest : List Event} {b : β}
      (ha : Answers m.bus (.access ⟨.read, m.cpu.regs.pc, opcode'⟩ :: rest) b) :
      opcode' = opcode :=
    Except.ok.inj (ha.first_read.symm.trans hr)
  cases hi : m.instruct.outcome with
  | error why =>
    obtain ⟨cut, ha⟩ := m.cpu.instruction_ensures.on_abort hf hi
    obtain ⟨e', rfl⟩ := cut.error_of_abort
    obtain ⟨opcode', rest, fetches, -, refuses⟩ := cut.refuses
    obtain rfl := first (fetches ▸ ha)
    rw [step_of_failed hi, refuses.error_eq h hpc]
  | ok view =>
    obtain ⟨done, ha⟩ := m.cpu.instruction_ensures.on_ok hi
    obtain ⟨opcode', rest, fetches, hd, -⟩ := done.of_done
    obtain rfl := first (fetches ▸ ha)
    -- what completes is documented and carried out
    cases h with
    | undocumented none =>
      rw [none] at hd
      cases hd
    | notImplemented hd' hs =>
      rw [hd] at hd'
      cases hd'
      rw [done.supported] at hs
      cases hs

theorem Refused.again (hq : Bus.Quiet β) {m m' : Machine β ω} (hf : Bus.NeverFaults m.bus)
    {e : ExecError} (h : m.Refused e m') : m'.step = (.error (.error e), m') := by
  obtain ⟨opcode, c, hr, refuses, left⟩ := h.unchanged
  have bus : m'.bus = m.bus := by rw [left]
  obtain rfl : m'.cpu = c := by rw [left]
  have hpc : m'.cpu.regs.pc = m.cpu.regs.pc := by rw [refuses.regs]
  have fetches : (Bus.read m'.bus m'.cpu.regs.pc).1 = .ok opcode := by rw [bus, hpc, hr]
  -- reading has left the bus as it was, so the same opcode is fetched
  have fails : m'.step.1 = .error (.error e) :=
    step_of_refuses (by rwa [bus]) fetches refuses hpc
  have stepped : m'.step = (.error (.error e), m'.step.2) := by rw [← fails]
  obtain ⟨opcode', c', hr', refuses', left'⟩ := (refused_of_step hq stepped).unchanged
  obtain rfl : opcode = opcode' := by
    rw [fetches] at hr'
    exact Except.ok.inj hr'
  rw [stepped, left', refuses.again refuses']

theorem guardedStep_eq_refusal {m m' : Machine β ω} {e : ExecError} (he : e.IsRefusal) :
    m.guardedStep = (.error e, m') ↔ m.step = (.error (.error e), m') := by
  unfold guardedStep
  rcases m.step with ⟨(f | err) | _, m₁⟩
  · have never : ExecError.internalFault m₁.cpu.fetched m.cpu.regs.pc f.message ≠ e := by
      rintro rfl
      exact he
    simp [never]
  · simp
  · simp

/-- A step that turns an instruction down leaves the machine as it was. A run that fails so has
come, by exactly as many steps as it has counted, to the machine that it leaves, and every later run
fails there again. -/
theorem refusal_keeps_machine (hq : Bus.Quiet β) {m : Machine β ω} (hf : Bus.NeverFaults m.bus)
    {e : ExecError} (he : e.IsRefusal) :
    (∀ m', m.step = (.error (.error e), m') → m.Refused e m') ∧
    ∀ count m', m.runFor count = (.error e, m') → ∃ k < count, ∃ m₁,
      Advances k { m with stop := false } m₁ ∧ m₁.cpu.executed = m.cpu.executed + k ∧
      m₁.Refused e m' ∧ ∀ n, 0 < n → m'.runFor n = (.error e, m') := by
  refine ⟨fun m' h => refused_of_step hq h, fun count m' h => ?_⟩
  obtain ⟨k, hk, m₁, adv, running, last⟩ := runFor_eq_error h
  -- the bus of the last step is one that the first bus becomes, and never faults either
  have refused := refused_of_step hq ((guardedStep_eq_refusal he).1 last)
  have again := refused.again hq (adv.neverFaults hf)
  refine ⟨k, hk, m₁, adv, adv.executed, refused, fun n hn => ?_⟩
  obtain ⟨n, rfl⟩ := Nat.exists_eq_add_one.2 hn
  have stopped : m'.stop = false := by
    obtain ⟨_, _, _, _, rfl⟩ := refused.unchanged
    exact running
  have same : ({ m' with stop := false } : Machine β ω) = m' := by rw [← stopped]
  rw [runFor, same, runFrom, stopped, (guardedStep_eq_refusal he).2 again]
  rfl

/-- `INX`, and then `PHA`, which is not carried out. -/
def pushing : Machine Memory Empty where
  cpu := { regs := { pc := 0x8000 } }
  bus := (Memory.zero.write 0x8000 0xE8).write 0x8001 0x48

theorem pushing_is_refused : ∃ m' : Machine Memory Empty,
    m'.Refused (.notImplemented ⟨0x48, .PHA, .implicit⟩ 0x8001) m' ∧ m'.cpu.executed = 1 ∧
    ∀ n, 0 < n →
      m'.runFor n = (.error (.notImplemented ⟨0x48, .PHA, .implicit⟩ 0x8001), m') := by
  have fails : pushing.runFor 10 =
      (.error (.notImplemented ⟨0x48, .PHA, .implicit⟩ 0x8001), (pushing.runFor 10).2) := rfl
  have keeps (m : Machine Memory Empty) := refusal_keeps_machine (m := m) Memory.quiet
    Memory.neverFaults (e := .notImplemented ⟨0x48, .PHA, .implicit⟩ 0x8001) trivial
  obtain ⟨k, -, m₁, -, -, -, again⟩ := (keeps pushing).2 10 _ fails
  exact ⟨_, (keeps _).1 _ rfl, rfl, again⟩

end Machine

end Mos6502
