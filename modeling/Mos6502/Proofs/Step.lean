import Mos6502.Proofs.Observing

namespace Mos6502

namespace Ending

variable {σ τ α γ β : Type}

theorem andThen_of_error {e : Ending β σ α} {f : α → σ → β → Ending β σ γ} {why : Abort}
    (h : e.outcome = .error why) : e.andThen f = ⟨.error why, e.state, e.bus, e.notes⟩ := by
  rw [andThen, h]

theorem andThen_of_ok {e : Ending β σ α} {f : α → σ → β → Ending β σ γ} {a : α}
    (h : e.outcome = .ok a) : e.andThen f = (f a e.state e.bus).after e.notes := by
  rw [andThen, h]

end Ending

namespace Engine

variable {β ω : Type} [Bus β] [Observer ω]

theorem step_on (e : Engine ω) (b : β) :
    step.on e b = ((Cpu.instruction.on e.cpu b).mapState fun cpu => { e with cpu }).andThen
      fun view e₁ b₁ => ((notify view).on e₁ b₁).andThen fun _ e₂ b₂ =>
        (Cpu.settle.on e₂.cpu b₂).mapState fun cpu => { e₂ with cpu } := by
  simp [step, onCpu]

end Engine

namespace Machine

variable {β ω : Type} [Bus β]

theorem performCpu_eq {α : Type} (p : Micro Cpu α) (m : Machine β ω) : m.performCpu p =
    let e := p.on m.cpu m.bus
    (e.outcome, { m with
      cpu := e.state
      bus := e.bus
      journal := e.notes.foldl (fun j n => if n.kept m.logging then j.push n else j) m.journal }) := by
  have run : (Engine.onCpu p).on m.toEngine m.bus =
      (p.on m.cpu m.bus).mapState fun cpu => { m.toEngine with cpu } := Micro.on_within ..
  have performed : m.performCpu p = m.perform (Engine.onCpu p) := rfl
  rw [performed, perform, run]
  rfl

theorem performCpu_of_ok {α : Type} {p : Micro Cpu α} {m : Machine β ω} {a : α}
    (h : (p.on m.cpu m.bus).outcome = .ok a) :
    ∃ m', m.performCpu p = (.ok a, m') ∧
      m'.toEngine = { m.toEngine with cpu := (p.on m.cpu m.bus).state } ∧
      m'.bus = (p.on m.cpu m.bus).bus := by
  rw [performCpu_eq]
  exact ⟨_, Prod.ext h rfl, rfl, rfl⟩

theorem performCpu_reset (m : Machine β ω) :
    m.performCpu Cpu.reset = (m.modifyCpu (Cpu.latch (some .reset))).performCpu Cpu.service := by
  rw [performCpu_eq, performCpu_eq, Cpu.reset_on]
  rfl

variable [Observer ω]

theorem step_eq (m : Machine β ω) : m.step =
    let e := Engine.step.on m.toEngine m.bus
    (e.outcome, ⟨e.state, e.bus,
      e.notes.foldl (fun j n => if n.kept m.logging then j.push n else j) m.journal, m.logging⟩) :=
  rfl

/-- What the instruction at the program counter does, before anybody is told of it. -/
def instruct (m : Machine β ω) : Ending β Cpu View := Cpu.instruction.on m.cpu m.bus

def instructed (m : Machine β ω) : Engine ω := { m.toEngine with cpu := m.instruct.state }

/-- What telling the observers does, once the instruction has shown `view`. -/
def tell (m : Machine β ω) (view : View) : Ending β (Engine ω) Unit :=
  (Engine.notify view).on m.instructed m.instruct.bus

def told (m : Machine β ω) (view : View) : List Access :=
  accesses ((Engine.notify view).events m.instructed m.instruct.bus)

theorem writesNothing_told (m : Machine β ω) (view : View) : WritesNothing (m.told view) := by
  obtain ⟨o, b', h, -⟩ := (Engine.notify_ensures view m.instructed).on m.instruct.bus
  exact h.1.1

theorem notify_of_nil {m : Machine β ω} (h : m.observers = []) (view : View) :
    Engine.notify view m.instructed = .done m.instructed () := Engine.notify_of_nil view h

theorem told_of_nil {m : Machine β ω} (h : m.observers = []) (view : View) : m.told view = [] :=
  congrArg (fun p : Activity (Engine ω) Unit => accesses (p.events m.instruct.bus))
    (notify_of_nil h view)

theorem tell_of_nil {m : Machine β ω} (h : m.observers = []) (view : View) :
    m.tell view = ⟨.ok (), m.instructed, m.instruct.bus, []⟩ :=
  congrArg (fun p : Activity (Engine ω) Unit => p.on m.instruct.bus) (notify_of_nil h view)

theorem serves_told {m : Machine β ω} {view : View} (h : (m.tell view).outcome = .ok ()) :
    Serves m.instruct.bus (m.told view) (m.tell view).bus := by
  obtain ⟨told, answered⟩ := (Engine.notify_ensures view m.instructed).on_ok h
  exact answered.serves told.1.2

/-- An instruction that does not complete is told to nobody, and nothing is polled or serviced. -/
theorem step_of_failed {m : Machine β ω} {why : Abort} (h : m.instruct.outcome = .error why) :
    m.step = (.error why, { m with cpu := m.instruct.state, bus := m.instruct.bus }) := by
  -- only an instruction that completes leaves notes: its own, and that of a `BRK` that is dropped
  have quiet : m.instruct.notes = [] := by
    obtain ⟨o, b', hc, -, he, hn⟩ := m.cpu.instruction_ensures.on m.bus
    change Finish.Ended b' o m.instruct.outcome m.instruct.state m.instruct.bus at he
    rw [h] at he
    cases he <;> exact hn.trans hc.notes_of_cut
  have run : Engine.step.on m.toEngine m.bus =
      ⟨.error why, m.instructed, m.instruct.bus, []⟩ := by
    rw [← quiet, Engine.step_on]
    exact Ending.andThen_of_error h
  rw [step_eq, run]
  rfl

theorem step_on_of_ok {m : Machine β ω} {view : View} (h : m.instruct.outcome = .ok view) :
    Engine.step.on m.toEngine m.bus = ((m.tell view).andThen fun _ e b =>
      (Cpu.settle.on e.cpu b).mapState fun cpu => { e with cpu }).after m.instruct.notes := by
  rw [Engine.step_on]
  exact Ending.andThen_of_ok h

theorem step_on_of_tell_failed {m : Machine β ω} {view : View} {why : Abort}
    (hi : m.instruct.outcome = .ok view) (ht : (m.tell view).outcome = .error why) :
    ∃ ns, Engine.step.on m.toEngine m.bus =
      ⟨.error why, (m.tell view).state, (m.tell view).bus, ns⟩ := by
  rw [step_on_of_ok hi, Ending.andThen_of_error ht]
  exact ⟨_, rfl⟩

theorem step_of_tell_failed {m : Machine β ω} {view : View} {why : Abort}
    (hi : m.instruct.outcome = .ok view) (ht : (m.tell view).outcome = .error why) :
    m.step.1 = .error why ∧ m.step.2.bus = (m.tell view).bus := by
  obtain ⟨ns, run⟩ := step_on_of_tell_failed hi ht
  rw [step_eq, run]
  exact ⟨rfl, rfl⟩

theorem cpu_of_tell_failed {m : Machine β ω} {view : View} {why : Abort}
    (hi : m.instruct.outcome = .ok view) (ht : (m.tell view).outcome = .error why) :
    m.step.2.cpu = m.instruct.state := by
  obtain ⟨ns, run⟩ := step_on_of_tell_failed hi ht
  rw [step_eq, run]
  obtain ⟨o, b', told, -, ended, -⟩ :=
    (Engine.notify_ensures view m.instructed).on m.instruct.bus
  change Finish.Ended b' o (m.tell view).outcome (m.tell view).state (m.tell view).bus at ended
  rw [ht] at ended
  cases o with
  | done e' _ => cases ended
  | cut e' cut =>
    have same : e'.cpu = m.instruct.state := told.2.1
    generalize (m.tell view).bus = b at ended
    cases ended <;> exact same

theorem step_of_told {m : Machine β ω} {view : View} (hi : m.instruct.outcome = .ok view)
    (ht : (m.tell view).outcome = .ok ()) :
    let settled := Cpu.settle.on m.instruct.state (m.tell view).bus
    m.step.1 = settled.outcome ∧
      m.step.2.toEngine = { (m.tell view).state with cpu := settled.state } ∧
      m.step.2.bus = settled.bus := by
  have same : (m.tell view).state.cpu = m.instruct.state :=
    ((Engine.notify_ensures view m.instructed).on_ok ht).1.2
  have run : ∃ ns, Engine.step.on m.toEngine m.bus =
      ((Cpu.settle.on (m.tell view).state.cpu (m.tell view).bus).mapState fun cpu =>
        { (m.tell view).state with cpu }).after ns := by
    rw [step_on_of_ok hi, Ending.andThen_of_ok ht, Ending.after_after]
    exact ⟨_, rfl⟩
  obtain ⟨ns, run⟩ := run
  rw [same] at run
  rw [step_eq, run]
  exact ⟨rfl, rfl, rfl⟩

/-- A step completes only if all of its parts do. -/
theorem step_eq_ok {m m' : Machine β ω} (h : m.step = (.ok (), m')) :
    ∃ view, m.instruct.outcome = .ok view ∧ (m.tell view).outcome = .ok () ∧
      let settled := Cpu.settle.on m.instruct.state (m.tell view).bus
      settled.outcome = .ok () ∧ m'.toEngine = { (m.tell view).state with cpu := settled.state } ∧
        m'.bus = settled.bus := by
  cases hi : m.instruct.outcome with
  | error why =>
    rw [step_of_failed hi] at h
    cases h
  | ok view =>
    cases ht : (m.tell view).outcome with
    | error why =>
      have failed := (step_of_tell_failed hi ht).1
      rw [h] at failed
      cases failed
    | ok _ =>
      have settled := step_of_told hi ht
      rw [h] at settled
      exact ⟨view, rfl, ht, settled.1.symm, settled.2⟩

omit [Observer ω] in
/-- An instruction that completes is the one that was fetched, and shows what it leaves. -/
theorem fetched_of_instruct {m : Machine β ω} {view : View} (h : m.instruct.outcome = .ok view) :
    ∃ opcode, (Bus.read m.bus m.cpu.regs.pc).1 = .ok opcode ∧
      Instruction.decode opcode = some view.instruction ∧
      view = m.instruct.state.view view.instruction := by
  obtain ⟨course, answered⟩ := m.cpu.instruction_ensures.on_ok h
  obtain ⟨opcode, rest, fetches, decodes, shows, -⟩ := course.of_done
  rw [fetches] at answered
  exact ⟨opcode, answered.first_read, decodes, shows⟩

/-- Only an instruction fails with an error of the processor. -/
theorem instruct_of_step_eq_error {m : Machine β ω} {e : ExecError}
    (h : m.step.1 = .error (.error e)) : m.instruct.outcome = .error (.error e) := by
  cases hi : m.instruct.outcome with
  | error why =>
    rw [step_of_failed hi] at h
    cases h
    rfl
  | ok view =>
    cases ht : (m.tell view).outcome with
    | error why =>
      rw [(step_of_tell_failed hi ht).1] at h
      obtain ⟨f, hf⟩ := (Engine.notify_ensures view _).on_fault (fun _ _ _ cut => cut.2.2) ht
      rw [hf] at h
      cases h
    | ok _ =>
      rw [(step_of_told hi ht).1] at h
      have refused (es : List Event) (c : Cpu) (why : Cut)
          (cut : m.instruct.state.Settling es (.cut c why)) : why.IsFault :=
        Cut.isFault_of_ne_abort cut.ne_abort
      obtain ⟨f, hf⟩ := (Cpu.settle_ensures m.instruct.state).on_fault refused h
      cases hf

end Machine

end Mos6502
