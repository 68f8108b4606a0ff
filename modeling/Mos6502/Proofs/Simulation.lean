import Mos6502.Proofs.Runs

namespace Mos6502.Machine

/-- The same machine, but for what is on record. -/
structure Same {β ω : Type} (m m' : Machine β ω) : Prop where
  engine : m'.toEngine = m.toEngine
  bus : m'.bus = m.bus

namespace Same

variable {β ω : Type} {m m' m'' : Machine β ω}

theorem symm (h : Same m m') : Same m' m := ⟨h.engine.symm, h.bus.symm⟩

theorem trans (h : Same m m') (h' : Same m' m'') : Same m m'' :=
  ⟨h'.engine.trans h.engine, h'.bus.trans h.bus⟩

theorem log (m : Machine β ω) (line : LogLine) : Same m (m.log line) := by
  unfold Machine.log note
  split
  · exact ⟨rfl, rfl⟩
  · exact ⟨rfl, rfl⟩

end Same

/-- `m` as a run until a stop finds it that begins at `addr`. -/
def placedAt {β ω : Type} (addr : Addr) (m : Machine β ω) : Machine β ω :=
  let m := m.modifyRegs (·.setPc addr)
  { m with stop := false, cpu := { m.cpu with holdPc := false } }

theorem same_begin {β ω : Type} (m : Machine β ω) :
    Same { m with stop := false, cpu := { m.cpu with holdPc := false } } m.begin := Same.log _ _

theorem same_startAt {β ω : Type} (addr : Addr) (m : Machine β ω) :
    Same (m.placedAt addr) (m.startAt addr) := Same.log _ _

section Begin

variable {β ω : Type} {m m' : Machine β ω}

theorem Same.begin (h : Same m m') : Same m.begin m'.begin := by
  have begun : Same { m with stop := false, cpu := { m.cpu with holdPc := false } }
      { m' with stop := false, cpu := { m'.cpu with holdPc := false } } := by
    refine ⟨?_, h.bus⟩
    rw [h.engine]
  exact ((same_begin m).symm.trans begun).trans (same_begin m')

theorem Same.startAt (h : Same m m') (addr : Addr) : Same (m.startAt addr) (m'.startAt addr) := by
  have placed : Same (m.modifyRegs (·.setPc addr)) (m'.modifyRegs (·.setPc addr)) := by
    refine ⟨?_, h.bus⟩
    unfold modifyRegs modifyCpu
    rw [h.engine]
  exact placed.begin

end Begin

variable {β β' ω ω' : Type} [Bus β] [Bus β'] [Observer ω] [Observer ω']

def Emulation.verdict? : Emulation β ω → Option (Except ExecError Unit)
  | .running _ => none
  | .ended verdict _ => some verdict

/-- Machines related by `R` make the same steps, and are related behind them. What is logged does
not matter. -/
structure Simulation (R : Machine β ω → Machine β' ω' → Prop) : Prop where
  cpu {m : Machine β ω} {m' : Machine β' ω'} (h : R m m') : m'.cpu = m.cpu
  stop {m : Machine β ω} {m' : Machine β' ω'} (h : R m m') : m'.stop = m.stop
  log {m : Machine β ω} {m' : Machine β' ω'} (h : R m m') (line : LogLine) :
    R (m.log line) (m'.log line)
  step {m : Machine β ω} {m' : Machine β' ω'} (h : R m m') :
    m'.step.1 = m.step.1 ∧ R m.step.2 m'.step.2

namespace Simulation

variable {R : Machine β ω → Machine β' ω' → Prop} {m : Machine β ω} {m' : Machine β' ω'}

theorem guardedStep (sim : Simulation R) (h : R m m') :
    m'.guardedStep.1 = m.guardedStep.1 ∧ R m.guardedStep.2 m'.guardedStep.2 := by
  have begun := sim.cpu h
  obtain ⟨outcome, related⟩ := sim.step h
  have left := sim.cpu related
  unfold Machine.guardedStep
  generalize m.step = s at outcome related left ⊢
  generalize m'.step = s' at outcome related left ⊢
  obtain ⟨r, m₁⟩ := s
  obtain ⟨r', m₁'⟩ := s'
  obtain rfl : r' = r := outcome
  rcases r' with (f | e) | _
  · refine ⟨?_, related⟩
    show Except.error (ExecError.internalFault m₁'.cpu.fetched m'.cpu.regs.pc f.message) = _
    rw [begun, left]
  · exact ⟨rfl, related⟩
  · exact ⟨rfl, related⟩

theorem runFrom (sim : Simulation R) (h : R m m') (done count : Nat) :
    (m'.runFrom done count).1 = (m.runFrom done count).1 ∧
      R (m.runFrom done count).2 (m'.runFrom done count).2 := by
  induction count generalizing done m m' with
  | zero => exact ⟨rfl, h⟩
  | succ count ih =>
    rw [Machine.runFrom, Machine.runFrom, sim.stop h]
    split
    · exact ⟨rfl, h⟩
    · obtain ⟨outcome, related⟩ := sim.guardedStep h
      generalize m.guardedStep = s at outcome related ⊢
      generalize m'.guardedStep = s' at outcome related ⊢
      obtain ⟨r, m₁⟩ := s
      obtain ⟨r', m₁'⟩ := s'
      obtain rfl : r' = r := outcome
      cases r' with
      | error e => exact ⟨rfl, related⟩
      | ok _ => exact ih related (done + 1)

theorem resume (sim : Simulation R) (h : R m m') (fuel : Nat) :
    (m'.resume fuel).verdict? = (m.resume fuel).verdict? ∧
      R (m.resume fuel).machine (m'.resume fuel).machine := by
  induction fuel generalizing m m' with
  | zero =>
    rw [Machine.resume, Machine.resume, sim.stop h, sim.cpu h]
    split
    · exact ⟨rfl, sim.log h _⟩
    · exact ⟨rfl, h⟩
  | succ fuel ih =>
    rw [Machine.resume, Machine.resume, sim.stop h, sim.cpu h]
    split
    · exact ⟨rfl, sim.log h _⟩
    · obtain ⟨outcome, related⟩ := sim.guardedStep h
      generalize m.guardedStep = s at outcome related ⊢
      generalize m'.guardedStep = s' at outcome related ⊢
      obtain ⟨r, m₁⟩ := s
      obtain ⟨r', m₁'⟩ := s'
      obtain rfl : r' = r := outcome
      cases r' with
      | error e => exact ⟨rfl, sim.log related _⟩
      | ok _ => exact ih related

end Simulation

theorem simulation_same : Simulation (Same : Machine β ω → Machine β ω → Prop) where
  cpu h := congrArg Engine.cpu h.engine
  stop h := congrArg Engine.stop h.engine
  log {m m'} h line := ((Same.log m line).symm.trans h).trans (Same.log m' line)
  step {m m'} h := by
    rw [step_eq, step_eq, h.engine, h.bus]
    exact ⟨rfl, rfl, rfl⟩

end Mos6502.Machine
