import Mos6502.Proofs.Refusal

namespace Mos6502

namespace Activity

variable {σ τ α γ β : Type} [Bus β]

theorem events_andThen (f : α → σ → Activity σ γ) : ∀ (p : Activity σ α) (b : β),
    (p.andThen f).events b = p.events b ++
      match (p.on b).outcome with
      | .ok a => (f a (p.on b).state).events (p.on b).bus
      | .error _ => []
  | .done _ _, _ | .abort _ _, _ => rfl
  | .read _ addr next, b => by
    simp only [andThen, events, on]
    rcases Bus.read b addr with ⟨_ | v, b'⟩
    · rfl
    · simp only [List.cons_append, events_andThen f (next v) b']
  | .write _ addr v next, b => by
    simp only [andThen, events, on]
    rcases Bus.write b addr v with ⟨_ | _, b'⟩
    · rfl
    · simp only [List.cons_append, events_andThen f next b']
  | .peek addr next, b => congrArg (_ :: ·) (events_andThen f (next (Bus.peek b addr)) b)
  | .poll _ next, b => by
    simp only [andThen, events, on]
    rcases Bus.poll b with ⟨_ | line, b'⟩
    · rfl
    · simp only [List.cons_append, events_andThen f (next line) b']
  | .note _ next, b => congrArg (_ :: ·) (events_andThen f next b)

theorem events_mapState (f : σ → τ) : ∀ (p : Activity σ α) (b : β),
    (p.mapState f).events b = p.events b
  | .done _ _, _ | .abort _ _, _ => rfl
  | .read _ addr next, b => by
    simp only [mapState, events]
    rcases Bus.read b addr with ⟨_ | v, b'⟩
    · rfl
    · simp only [events_mapState f (next v) b']
  | .write _ addr v next, b => by
    simp only [mapState, events]
    rcases Bus.write b addr v with ⟨_ | _, b'⟩
    · rfl
    · simp only [events_mapState f next b']
  | .peek addr next, b => congrArg (_ :: ·) (events_mapState f (next (Bus.peek b addr)) b)
  | .poll _ next, b => by
    simp only [mapState, events]
    rcases Bus.poll b with ⟨_ | line, b'⟩
    · rfl
    · simp only [events_mapState f (next line) b']
  | .note _ next, b => congrArg (_ :: ·) (events_mapState f next b)

end Activity

namespace Micro

variable {σ τ α γ β : Type} [Bus β] (b : β)

theorem events_bind (p : Micro σ α) (f : α → Micro σ γ) (s : σ) :
    (p >>= f).events s b = p.events s b ++
      match (p.on s b).outcome with
      | .ok a => (f a).events (p.on s b).state (p.on s b).bus
      | .error _ => [] :=
  Activity.events_andThen f (p s) b

theorem events_within (get : τ → σ) (put : σ → τ → τ) (p : Micro σ α) (t : τ) :
    (within get put p).events t b = p.events (get t) b :=
  Activity.events_mapState _ (p (get t)) b

end Micro

def Finish.state {σ α : Type} : Finish σ α → σ
  | .done s _ | .cut s _ => s

theorem Finish.Ended.state_eq {σ α β : Type} [Bus β] {b b' : β} {o : Finish σ α}
    {r : Except Abort α} {s : σ} (h : Ended b o r s b') : s = o.state := by
  cases h <;> rfl

namespace Cpu

/-- The opcode fetched last when the accesses `as` of an instruction have been made, the first of
which is the fetch. -/
def fetchedBy (c : Cpu) (as : List Access) : Byte := (as.head?.map Access.value).getD c.fetched

theorem Performs.fetched {i : Instruction} {target : Option Addr} {c c' : Cpu} {op : Operation}
    {es : List Event} (h : Performs i target c op es c') : c'.fetched = c.fetched := by
  cases h <;> rfl

theorem Falters.fetched {i : Instruction} {c c' : Cpu} {op : Operation} {es : List Event}
    {why : Cut} (h : Falters i c op es c' why) : c'.fetched = c.fetched := by
  cases h <;> rfl

theorem Falters.executed {i : Instruction} {c c' : Cpu} {op : Operation} {es : List Event}
    {why : Cut} (h : Falters i c op es c' why) : c'.executed = c.executed := by
  cases h <;> rfl

@[simp] theorem fetched_complete (c : Cpu) (i : Instruction) :
    (c.complete i).fetched = c.fetched := by
  unfold complete advance; split <;> rfl

theorem Course.fetched {c : Cpu} {es : List Event} {o : Finish Cpu View} (h : Course c es o) :
    o.state.fetched = c.fetchedBy (accesses es) := by
  cases h with
  | unfetched | undocumented | unresolved | unsupported => rfl
  | faltered _ _ hf => exact hf.fetched
  | completed _ _ hp => exact (fetched_complete _ _).trans hp.fetched

theorem Course.executed_of_cut {c c' : Cpu} {es : List Event} {why : Cut}
    (h : Course c es (.cut c' why)) : c'.executed = c.executed := by
  cases h with
  | unfetched | undocumented | unresolved | unsupported => rfl
  | faltered _ _ hf => exact hf.executed

theorem fetchedBy_append (c : Cpu) {as : List Access} (h : as ≠ []) (bs : List Access) :
    c.fetchedBy (as ++ bs) = c.fetchedBy as := by
  obtain ⟨a, as, rfl⟩ := List.exists_cons_of_ne_nil h
  rfl

/-- Nothing has been fetched or counted in between. -/
def SameProgress (c c' : Cpu) : Prop := c'.fetched = c.fetched ∧ c'.executed = c.executed

/-- Servicing touches the latch and the registers only, also where it is cut short. -/
theorem service_frame (c : Cpu) :
    service.Ensures c fun _ o => ∃ pending regs, o.state = { c with pending, regs } := by
  have touched (regs : Registers) : ∃ pending regs', ({ c with pending := none, regs } : Cpu) =
      { c with pending := pending, regs := regs' } := ⟨none, regs, rfl⟩
  unfold service enter
  simp only [Micro.ensures_bind, Micro.ensures_get, Finish.then_done]
  cases hp : c.pending with
  | none => exact ⟨c.pending, c.regs, rfl⟩
  | some kind =>
    simp only [handler, Micro.ensures_bind, Micro.ensures_modify, Micro.ensures_ite, ensures_save,
      Micro.ensures_readWord, Micro.ensures_get, Micro.ensures_log, ensures_modifyRegs,
      Finish.then_done, Finish.then_cut]
    split
    · exact touched _
    · split
      · exact ⟨touched _, touched _, touched _, touched _,
          fun lo => ⟨touched _, fun hi => touched _⟩⟩
      · exact ⟨touched _, fun lo => ⟨touched _, fun hi => touched _⟩⟩

theorem service_on_frame {β : Type} [Bus β] (c : Cpu) (b : β) :
    ∃ pending regs, (service.on c b).state = { c with pending, regs } := by
  obtain ⟨o, b', frame, -, ended, -⟩ := (service_frame c).on b
  rw [ended.state_eq]
  exact frame

theorem settle_on_frame {β : Type} [Bus β] (c : Cpu) (b : β) :
    ∃ pending regs, (settle.on c b).state = { c with pending, regs } := by
  rcases hp : Bus.poll b with ⟨f | line, b'⟩
  · rw [settle_on_of_fault c hp]
    exact ⟨c.pending, c.regs, rfl⟩
  · obtain ⟨ns, run⟩ := settle_on c hp
    rw [run, Ending.state_after]
    exact service_on_frame (c.latch (c.latched line)) b'

end Cpu

namespace Machine

variable {β ω : Type} [Bus β] [Observer ω]

def instructionAccesses (m : Machine β ω) : List Access :=
  accesses (Cpu.instruction.events m.cpu m.bus)

/-- What passes between a step and the bus. -/
def stepEvents (m : Machine β ω) : List Event := Engine.step.events m.toEngine m.bus

/-- The accesses of a step: those of the instruction, of the observers, and of an interrupt. -/
def stepAccesses (m : Machine β ω) : List Access := accesses m.stepEvents

theorem stepAccesses_eq (m : Machine β ω) : ∃ rest,
    m.stepAccesses = m.instructionAccesses ++ rest ∧
      ∀ why, m.instruct.outcome = .error why → rest = [] := by
  have outcome : ((Engine.onCpu Cpu.instruction).on m.toEngine m.bus).outcome =
      m.instruct.outcome := by
    rw [Engine.onCpu, Micro.on_within]
    rfl
  unfold stepAccesses stepEvents Engine.step
  rw [Micro.events_bind, outcome, accesses_append]
  refine ⟨_, congrArg (· ++ _) ?_, ?_⟩
  · rw [Engine.onCpu, Micro.events_within]
    rfl
  · intro why failed
    rw [failed]
    rfl

theorem step_frame (m : Machine β ω) {view : View} (hi : m.instruct.outcome = .ok view) :
    ∃ pending regs, m.step.2.cpu = { m.instruct.state with pending, regs } := by
  cases ht : (m.tell view).outcome with
  | error why =>
    rw [cpu_of_tell_failed hi ht]
    exact ⟨m.instruct.state.pending, m.instruct.state.regs, rfl⟩
  | ok _ =>
    rw [(step_of_told hi ht).2.1]
    exact m.instruct.state.settle_on_frame (m.tell view).bus

/-- However a step ends, it remembers the opcode fetched last, and has counted its instruction if that
has completed. -/
theorem step_progress (m : Machine β ω) :
    let cpu := m.step.2.cpu
    cpu.fetched = m.cpu.fetchedBy m.instructionAccesses ∧
      (∀ view, m.instruct.outcome = .ok view → cpu.executed = m.cpu.executed + 1) ∧
      ∀ why, m.instruct.outcome = .error why → cpu.executed = m.cpu.executed := by
  obtain ⟨o, b', course, -, ended, -⟩ := m.cpu.instruction_ensures.on m.bus
  change Finish.Ended b' o m.instruct.outcome m.instruct.state m.instruct.bus at ended
  have fetched : m.instruct.state.fetched = m.cpu.fetchedBy m.instructionAccesses := by
    rw [ended.state_eq]
    exact course.fetched
  cases hi : m.instruct.outcome with
  | error why =>
    rw [step_of_failed hi]
    refine ⟨fetched, by simp, fun _ _ => ?_⟩
    rw [hi] at ended
    cases o with
    | done _ _ => cases ended
    | cut s cut =>
      show m.instruct.state.executed = _
      rw [ended.state_eq]
      exact course.executed_of_cut
  | ok view =>
    have kept : m.instruct.state.SameProgress m.step.2.cpu := by
      obtain ⟨pending, regs, frame⟩ := m.step_frame hi
      rw [frame]
      exact ⟨rfl, rfl⟩
    refine ⟨kept.1.trans fetched, fun _ _ => ?_, by simp⟩
    exact kept.2.trans (m.cpu.instruction_ensures.on_ok hi).1.executed

theorem fetches_of_neverFaults {m : Machine β ω} (hf : Bus.NeverFaults m.bus) : ∃ opcode rest,
    m.stepAccesses = ⟨.read, m.cpu.regs.pc, opcode⟩ :: rest ∧
      m.instructionAccesses ≠ [] ∧ m.step.2.cpu.fetched = opcode := by
  obtain ⟨opcode, b, read, -⟩ := hf.reads m.cpu.regs.pc
  have first : ∃ rest, m.instructionAccesses = ⟨.read, m.cpu.regs.pc, opcode⟩ :: rest := by
    change ∃ rest, accesses (Activity.events (.read m.cpu m.cpu.regs.pc _) m.bus) = _
    rw [Activity.events, read]
    exact ⟨_, rfl⟩
  obtain ⟨rest, first⟩ := first
  obtain ⟨others, split, -⟩ := m.stepAccesses_eq
  obtain ⟨fetched, -⟩ := m.step_progress
  rw [first] at split fetched ⊢
  exact ⟨opcode, rest ++ others, split, List.cons_ne_nil _ _, fetched⟩

end Machine

end Mos6502
