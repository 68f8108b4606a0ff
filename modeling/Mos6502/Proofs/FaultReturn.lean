import Mos6502.Bus.Guarded
import Mos6502.Proofs.Alarm
import Mos6502.Proofs.Progress
import Mos6502.Proofs.Unobserved

namespace Mos6502

def Cut.raised : Cut → List Fault
  | .abort (.fault f) => [f]
  | _ => []

def Finish.raised {σ α : Type} : Finish σ α → List Fault
  | .done _ _ => []
  | .cut _ why => why.raised

theorem Probe.alarmed_ensures {ω σ : Type} (position : Nat) (put : Alarmed ω → σ) (p : Probe ω) :
    ((p.alarmed []).activity position put).Ensures fun _ o =>
      o.Then (fun s a => a.1.raised = [] ∧ s = put a.1) fun s why =>
        ∃ self : Alarmed ω, self.raised = why.raised ∧ s = put self := by
  induction p with
  | done self control => exact ⟨rfl, rfl⟩
  | fault self f => exact ⟨_, rfl, rfl⟩
  | read self addr next ih => exact ⟨⟨_, rfl, rfl⟩, ih⟩
  | peek addr next ih => exact ih
  | print _ _ ih | log _ _ ih | keep _ _ ih | pause _ _ ih => exact ih

/-- The fault, if any, that has cut work short. -/
def faultsOf {α : Type} : Except Abort α → List Fault
  | .error (.fault f) => [f]
  | _ => []

theorem Finish.Ended.raised {σ α β : Type} [Bus β] {b b' : Alarmed β} {o : Finish σ α}
    {r : Except Abort α} {s : σ} (h : Ended b o r s b') :
    b'.raised ++ o.raised = b.raised ++ faultsOf r := by
  cases h with
  | done => rfl
  | abort s why => cases why <;> rfl
  | refusedRead s hr => exact (List.append_nil _).trans (Alarmed.raised_of_refusedRead hr)
  | refusedWrite s hw => exact (List.append_nil _).trans (Alarmed.raised_of_refusedWrite hw)
  | refusedPoll s hp => exact (List.append_nil _).trans (Alarmed.raised_of_refusedPoll hp)

theorem Cut.raised_of_ne_abort {why : Cut} (h : ∀ a, why ≠ .abort a) : why.raised = [] := by
  cases why with
  | abort a => exact absurd rfl (h a)
  | refusedRead | refusedWrite | refusedPoll => rfl

theorem Cpu.Course.raised_of_cut {c c' : Cpu} {es : List Event} {why : Cut}
    (h : Course c es (.cut c' why)) : why.raised = [] := by
  cases why with
  | abort a =>
    obtain ⟨e, rfl⟩ := h.error_of_abort
    rfl
  | refusedRead | refusedWrite | refusedPoll => rfl

namespace Engine

variable {ω : Type} [Observer ω]

theorem notifyFrom_raised (view : View) {before rest : List (Alarmed ω)} (stop : Bool)
    {e : Engine (Alarmed ω)} (he : e.observers = before ++ rest)
    (earlier : before.flatMap Alarmed.raised = []) (later : rest.flatMap Alarmed.raised = []) :
    (notifyFrom view before rest stop).Ensures e fun _ o => o.state.raised = o.raised := by
  induction rest generalizing before stop e with
  | nil =>
    show e.observers.flatMap Alarmed.raised = []
    rw [he, List.append_nil, earlier]
  | cons o rest ih =>
    rw [List.flatMap_cons, List.append_eq_nil_iff] at later
    obtain ⟨silent, later⟩ := later
    -- each observer raises at most one fault, and this cuts the round short
    have told : (tell view before rest stop o).Ensures e fun _ o =>
        o.Then (fun e' a => a.1.raised = [] ∧ e' = { e with observers := before ++ a.1 :: rest })
          fun e' why => ∃ self : Alarmed ω, self.raised = why.raised ∧
            e' = { e with observers := before ++ self :: rest } := by
      show (((Observer.notify view stop o.source).alarmed o.raised).activity _ _).Ensures _
      rw [silent]
      exact Probe.alarmed_ensures _ _ _
    rw [notifyFrom_cons, Micro.ensures_bind]
    refine told.mono fun _ ending told => ?_
    cases ending with
    | cut e' why =>
      obtain ⟨self, raised, rfl⟩ := told
      show (before ++ self :: rest).flatMap Alarmed.raised = why.raised
      rw [List.flatMap_append, List.flatMap_cons, earlier, later, raised, List.nil_append,
        List.append_nil]
    | done e' a =>
      obtain ⟨raised, rfl⟩ := told
      refine ih (a.2.apply stop) (List.append_cons before a.1 rest) ?_ later
      rw [List.flatMap_append, List.flatMap_singleton, earlier, raised, List.nil_append]

theorem notify_raised (view : View) {e : Engine (Alarmed ω)} (quiet : e.raised = []) :
    (notify view).Ensures e fun _ o => o.state.raised = o.raised := by
  unfold notify
  simp only [Micro.ensures_bind, Micro.ensures_get, Finish.then_done]
  refine (notifyFrom_raised view false (List.nil_append _).symm rfl quiet).mono
    fun _ ending told => ?_
  cases ending with
  | cut _ why => exact told
  | done e' stop =>
    cases stop with
    | false => exact told
    | true => exact told

theorem step_raised {e : Engine (Alarmed ω)} (quiet : e.raised = []) :
    step.Ensures e fun _ o => o.state.raised = o.raised := by
  unfold step onCpu
  simp only [Micro.ensures_bind, Micro.ensures_within]
  refine e.cpu.instruction_ensures.mono fun _ o course => ?_
  cases o with
  | cut c why => exact quiet.trans course.raised_of_cut.symm
  | done c view =>
    have quiet : raised { e with cpu := c } = [] := quiet
    refine (notify_raised view quiet).mono fun _ o told => ?_
    cases o with
    | cut e' why => exact told
    | done e' _ =>
      refine (Cpu.settle_ensures e'.cpu).mono fun _ o settling => ?_
      cases o with
      | done _ _ => exact told
      | cut c' why => exact told.trans (Cut.raised_of_ne_abort settling.ne_abort).symm

end Engine

/-- What is heard of the faults `raised` in a run that has come to a processor which fetched the
opcode `fetched` last: one at most is raised, and the run ends with it. -/
inductive Heard (fetched : Byte) : (raised : List Fault) → (failure : Option ExecError) → Prop
  | nothing {failure : Option ExecError}
      (h : ∀ opcode pc message, failure ≠ some (.internalFault opcode pc message)) :
      Heard fetched [] failure
  | fault (f : Fault) (pc : Addr) :
      Heard fetched [f] (some (.internalFault fetched pc f.message))

namespace Machine

variable {β ω : Type}

theorem heard_of_ok {m : Machine (Alarmed β) (Alarmed ω)} {opcode : Byte} (quiet : m.raised = []) :
    Heard opcode m.raised none := by
  rw [quiet]
  exact .nothing (by simp)

def failure? {α : Type} : Except ExecError α → Option ExecError
  | .error e => some e
  | .ok _ => none

variable [Bus β]

section Reset

/-- The fault, if any, that the bus raises when the reset vector is read from it. -/
def resetFault? (b : β) : Option Fault :=
  match Bus.read b 0xFFFC with
  | (.error f, _) => some f
  | (.ok _, b') => match Bus.read b' 0xFFFD with
    | (.error f, _) => some f
    | (.ok _, _) => none

theorem reset_outcome (c : Cpu) (b : β) : (Cpu.reset.on c b).outcome =
    match resetFault? b with
    | some f => .error (.fault f)
    | none => .ok () := by
  have tree : ∃ (s : Cpu) (n : Byte → Byte → Note) (s' : Byte → Byte → Cpu),
      Cpu.reset c = .read s 0xFFFC fun lo => .read s 0xFFFD fun hi =>
        .note (n lo hi) (.done (s' lo hi) ()) := ⟨_, _, _, rfl⟩
  obtain ⟨s, n, s', tree⟩ := tree
  unfold Micro.on resetFault?
  rw [tree, Activity.on]
  rcases Bus.read b 0xFFFC with ⟨f | lo, b'⟩
  · rfl
  · simp only [Activity.on]
    rcases Bus.read b' 0xFFFD with ⟨f | hi, b''⟩
    · rfl
    · rfl

theorem reset_raised (c : Cpu) (b : Alarmed β) :
    (Cpu.reset.on c b).bus.raised = b.raised ++ faultsOf (Cpu.reset.on c b).outcome := by
  rw [Cpu.reset_on]
  obtain ⟨o, b', servicing, answered, ended, -⟩ :=
    (Cpu.service_ensures (c.latch (some .reset))).on b
  rw [← Alarmed.raised_of_answers answered, ← ended.raised]
  have silent : o.raised = [] := by
    cases o with
    | done => rfl
    | cut c' why =>
      generalize Cpu.service.events _ b = es at servicing
      cases servicing with
      | refused _ _ hw => exact Cut.raised_of_ne_abort hw
  rw [silent, List.append_nil]

theorem start_outcome (m : Machine β ω) : m.start.1 =
    match resetFault? m.bus with
    | some f => .error (.fault f)
    | none => .ok () := by
  rw [← reset_outcome m.cpu m.bus]
  have performed : (m.performCpu Cpu.reset).1 = (Cpu.reset.on m.cpu m.bus).outcome := by
    rw [performCpu_eq]
  rw [← performed, start]
  rcases m.performCpu Cpu.reset with ⟨_ | _, _⟩ <;> rfl

theorem start_raised {m : Machine (Alarmed β) (Alarmed ω)} (quiet : m.raised = []) :
    m.start.2.raised = faultsOf m.start.1 := by
  have left : (m.performCpu Cpu.reset).2.raised = faultsOf (m.performCpu Cpu.reset).1 := by
    obtain ⟨bus, engine⟩ := List.append_eq_nil_iff.1 quiet
    rw [performCpu_eq]
    show (Cpu.reset.on m.cpu m.bus).bus.raised ++ m.toEngine.raised = _
    rw [reset_raised, bus, engine, List.nil_append, List.append_nil]
  unfold start
  generalize m.performCpu Cpu.reset = r at left ⊢
  rcases r with ⟨_ | _, m₁⟩
  · exact left
  · exact (raised_of_same (same_begin m₁)).trans left

theorem start_silenced (m : Machine (Alarmed β) (Alarmed ω)) :
    m.start.1 = m.silenced.start.1 ∧ m.start.2.silenced = m.silenced.start.2 := by
  have reset : (m.performCpu Cpu.reset).1 = (m.silenced.performCpu Cpu.reset).1 ∧
      (m.performCpu Cpu.reset).2.silenced = (m.silenced.performCpu Cpu.reset).2 :=
    perform_silenced (Engine.onCpu_silenced Cpu.reset) m
  unfold start
  generalize m.performCpu Cpu.reset = r at reset ⊢
  generalize m.silenced.performCpu Cpu.reset = r' at reset ⊢
  obtain ⟨outcome, m₁⟩ := r
  obtain ⟨outcome', m₁'⟩ := r'
  obtain ⟨rfl, rfl⟩ : outcome = outcome' ∧ m₁.silenced = m₁' := reset
  cases outcome with
  | error why => exact ⟨rfl, rfl⟩
  | ok _ => exact ⟨rfl, begin_silenced m₁⟩

end Reset

variable [Observer ω]

theorem step_raised {m : Machine (Alarmed β) (Alarmed ω)} (quiet : m.raised = []) :
    m.step.2.raised = faultsOf m.step.1 := by
  obtain ⟨bus, engine⟩ := List.append_eq_nil_iff.1 quiet
  obtain ⟨o, b', raised, answered, ended, -⟩ := (Engine.step_raised engine).on m.bus
  have left := ended.raised
  rw [Alarmed.raised_of_answers answered, bus, List.nil_append, ← raised, ← ended.state_eq] at left
  exact left

theorem advances_raised {k : Nat} {m m' : Machine (Alarmed β) (Alarmed ω)} (h : Advances k m m')
    (quiet : m.raised = []) : m'.raised = [] := by
  induction h with
  | refl => exact quiet
  | step _ hs _ ih =>
    have first := step_raised quiet
    rw [hs] at first
    exact ih first

theorem heard_of_guardedStep {m m' : Machine (Alarmed β) (Alarmed ω)} {e : ExecError}
    (quiet : m.raised = []) (hg : m.guardedStep = (.error e, m')) :
    Heard m'.cpu.fetched m'.raised (some e) := by
  have raised := step_raised quiet
  unfold guardedStep at hg
  rcases hs : m.step with ⟨(f | e') | _, m₁⟩ <;> rw [hs] at hg raised <;> cases hg
  · rw [raised]
    exact .fault f _
  · rw [raised]
    have refused : m.instruct.outcome = .error (.error e) := instruct_of_step_eq_error (by rw [hs])
    obtain ⟨_, _, -, -, refuses⟩ := (m.cpu.instruction_ensures.on_error refused).1.refuses
    refine .nothing fun opcode pc message h => ?_
    cases h
    cases refuses

theorem heard_of_runFor {m : Machine (Alarmed β) (Alarmed ω)} (quiet : m.raised = [])
    (count : Nat) : Heard (m.runFor count).2.cpu.fetched (m.runFor count).2.raised
      (failure? (m.runFor count).1) := by
  obtain ⟨k, m', adv, ends⟩ := ran count m
  have quiet' : m'.raised = [] := advances_raised adv quiet
  generalize m.runFor count = r at ends
  cases ends with
  | completed => exact heard_of_ok quiet'
  | failed _ _ failed => exact heard_of_guardedStep quiet' failed

theorem heard_of_resume {m : Machine (Alarmed β) (Alarmed ω)} (quiet : m.raised = [])
    (fuel : Nat) : Heard (m.resume fuel).machine.cpu.fetched (m.resume fuel).machine.raised
      ((m.resume fuel).verdict?.bind failure?) := by
  obtain ⟨k, m', adv, stands⟩ := resumed fuel m
  have quiet' := advances_raised adv quiet
  generalize m.resume fuel = s at stands
  cases stands with
  | running => exact heard_of_ok quiet'
  | stopped =>
    refine heard_of_ok ?_
    rw [Emulation.machine, raised_of_same (Same.log m' _), quiet']
  | @failed _ _ e m₁ failed =>
    have logged : Same m₁ (m₁.log (.failed e)) := Same.log m₁ _
    show Heard (m₁.log (.failed e)).cpu.fetched (m₁.log (.failed e)).raised (some e)
    rw [raised_of_same logged, logged.engine]
    exact heard_of_guardedStep quiet' failed

/-- A machine with alarms runs as `run`, and what is raised is heard. -/
structure Emulation.Echoes (run : Emulation β ω) (run' : Emulation (Alarmed β) (Alarmed ω)) :
    Prop where
  verdict : run'.verdict? = run.verdict?
  machine : run'.machine.silenced = run.machine
  heard : Heard run'.machine.cpu.fetched run'.machine.raised (run'.verdict?.bind failure?)

theorem echoes_of_silenced {m : Machine β ω} {m' : Machine (Alarmed β) (Alarmed ω)}
    (same : m'.silenced = m) (quiet : m'.raised = []) (fuel : Nat) :
    (m.resume fuel).Echoes (m'.resume fuel) := by
  obtain ⟨verdict, machine⟩ := simulation_silenced.resume same fuel
  exact ⟨verdict, machine, heard_of_resume quiet fuel⟩

/-- At most one fault of the bus or of an observer is raised in a run of either kind. It ends the run,
and the run fails with an error that carries its message. A run that begins with a reset does so too,
but for a fault of the bus when the reset vector is read, which comes before the run and is left as it
is. -/
theorem faults_come_back (m : Machine β ω) :
    (∀ count,
      let run := m.alarmed.runFor count
      run.1 = (m.runFor count).1 ∧ run.2.silenced = (m.runFor count).2 ∧
        Heard run.2.cpu.fetched run.2.raised (failure? run.1)) ∧
    (∀ addr fuel, ((m.startAt addr).resume fuel).Echoes ((m.alarmed.startAt addr).resume fuel)) ∧
    let start := m.alarmed.start
    start.1 = m.start.1 ∧ start.2.silenced = m.start.2 ∧
      match resetFault? m.bus with
      | some f => m.start.1 = .error (.fault f) ∧ start.2.raised = [f]
      | none => m.start.1 = .ok () ∧ ∀ fuel, (m.start.2.resume fuel).Echoes (start.2.resume fuel) := by
  have alike := silenced_alarmed m
  have quiet := raised_alarmed m
  refine ⟨fun count => ?_, fun addr fuel => ?_, ?_⟩
  · have begun : ({ m.alarmed with stop := false } : Machine _ _).silenced =
        { m with stop := false } := congrArg (fun m => { m with stop := false }) alike
    obtain ⟨outcome, left⟩ := simulation_silenced.runFrom begun 0 count
    exact ⟨outcome, left, heard_of_runFor quiet count⟩
  · have placed : (m.alarmed.modifyRegs (·.setPc addr)).silenced =
        m.modifyRegs (·.setPc addr) := congrArg (modifyRegs (·.setPc addr)) alike
    have begun : (m.alarmed.startAt addr).silenced = m.startAt addr := by
      rw [startAt, begin_silenced, placed, startAt]
    have quiet' : (m.alarmed.startAt addr).raised = [] := by
      rw [raised_of_same (same_startAt addr _)]
      exact quiet
    exact echoes_of_silenced begun quiet' fuel
  · obtain ⟨outcome, left⟩ := start_silenced m.alarmed
    rw [alike] at outcome left
    refine ⟨outcome, left, ?_⟩
    have raised := start_raised quiet
    have ends := start_outcome m
    rw [outcome] at raised
    split at ends
    · rw [ends] at raised ⊢
      exact ⟨rfl, raised⟩
    · rw [ends] at raised ⊢
      exact ⟨rfl, fun fuel => echoes_of_silenced left raised fuel⟩

def vectorless : Machine (Guarded Memory) Empty where
  bus := ⟨Memory.zero, [⟨.read, 0xFFFC, 0xFFFC, .text "bus fault"⟩]⟩

theorem reset_fault_escapes :
    vectorless.alarmed.start.2.raised = [.text "bus fault"] ∧
    vectorless.start.1 = .error (.fault (.text "bus fault")) ∧
    ∀ opcode pc message,
      vectorless.start.1 ≠ .error (.error (.internalFault opcode pc message)) := by
  have escapes : vectorless.start.1 = .error (.fault (.text "bus fault")) := rfl
  refine ⟨rfl, escapes, ?_⟩
  rw [escapes]
  nofun

end Machine

end Mos6502
