import Mos6502.Proofs.Faultless

namespace Mos6502

inductive Entry where
  | completed (i : Instruction)
  /-- A fault cut an `RTI` short that had popped the status already. -/
  | halfReturned
  /-- A request found the latch empty. -/
  | accepted (kind : Interrupt)
  /-- A request found the latch taken. -/
  | refused (kind : Interrupt)
  | serviced (kind : Interrupt)
  /-- An `irq` was taken out of the latch and dropped, as interrupts were disabled. -/
  | masked
  /-- A reset took the place of what was latched. -/
  | overwritten (kind : Interrupt)
  | restarted
  /-- A fault kept a request from being serviced that had been taken out of the latch. -/
  | lost (kind : Interrupt)
  deriving DecidableEq

namespace Entry

def request (kind : Interrupt) (latch : Option Interrupt) : Entry :=
  if latch = none then .accepted kind else .refused kind

/-- What a note says about the request that was taken out of the latch. -/
def ofNote? : Note → Option Entry
  | .log (.servicing kind _ _) => some (.serviced kind)
  | .log (.irqMasked _) => some .masked
  | _ => none

def ofNotes (ns : List Note) : List Entry := ns.filterMap ofNote?

/-- An instruction that completes; `BRK` makes a request. -/
def ofInstruction (i : Instruction) (latch : Option Interrupt) : List Entry :=
  if i.mnemonic = .BRK then [request .brk latch, .completed i] else [.completed i]

end Entry

namespace Cpu

variable {β : Type} [Bus β]

def serviceEntries (c : Cpu) (b : β) : List Entry :=
  match (service.on c b).outcome with
  | .ok _ => Entry.ofNotes (service.on c b).notes
  | .error _ => c.pending.toList.map .lost

def settleEntries (c : Cpu) (b : β) : List Entry :=
  match Bus.poll b with
  | (.ok line, b') =>
    (if line then [.request .irq c.pending] else []) ++
      (c.latch (c.latched line)).serviceEntries b'
  | (.error _, _) => []

theorem settleEntries_of_poll {c : Cpu} {b b' : β} {line : Bool}
    (h : Bus.poll b = (.ok line, b')) : c.settleEntries b =
      (if line then [.request .irq c.pending] else []) ++
        (c.latch (c.latched line)).serviceEntries b' := by
  rw [settleEntries, h]

def resetEntries (c : Cpu) (b : β) : List Entry :=
  c.pending.toList.map .overwritten ++
    match (reset.on c b).outcome with
    | .ok _ => [.restarted]
    | .error _ => []

/-- One move of a processor, with what it leaves on record. -/
inductive Move (c : Cpu) : List Entry → Cpu → Prop
  | requested (kind : Interrupt) :
      Move c [.request kind c.pending] (c.latch (c.pending.or (some kind)))
  | completed {es : List Event} {c' : Cpu} {view : View} (h : c.Course es (.done c' view)) :
      Move c (Entry.ofInstruction view.instruction c.pending) c'
  | cutShort {es : List Event} {c' : Cpu} {why : Cut} (h : c.Course es (.cut c' why))
      (hf : c'.regs.flags = c.regs.flags) : Move c [] c'
  | halfReturned {es : List Event} {c' : Cpu} {why : Cut} (h : c.Course es (.cut c' why)) :
      Move c [.halfReturned] c'
  | serviced {es : List Event} {c' : Cpu} (h : c.Servicing es (.done c' ())) :
      Move c (Entry.ofNotes (notes es)) c'
  | lost {es : List Event} {c' : Cpu} {why : Cut} (h : c.Servicing es (.cut c' why)) :
      Move c (c.pending.toList.map .lost) c'
  | restarted {es : List Event} {c' : Cpu} (h : (c.latch (some .reset)).Servicing es (.done c' ())) :
      Move c (c.pending.toList.map .overwritten ++ [.restarted]) c'
  | notRestarted {es : List Event} {c' : Cpu} {why : Cut}
      (h : (c.latch (some .reset)).Servicing es (.cut c' why)) :
      Move c (c.pending.toList.map .overwritten) c'
  | arranged {c' : Cpu} (hp : c'.pending = c.pending) (hf : c'.regs.flags = c.regs.flags) :
      Move c [] c'

inductive Moves : Cpu → List Entry → Cpu → Prop
  | refl (c : Cpu) : Moves c [] c
  | step {c c' c'' : Cpu} {es fs : List Entry} (h : Move c es c') (rest : Moves c' fs c'') :
      Moves c (es ++ fs) c''

theorem Move.moves {c c' : Cpu} {es : List Entry} (h : Move c es c') : Moves c es c' := by
  have once := Moves.step h (.refl c')
  rwa [List.append_nil] at once

theorem Moves.trans {c c' c'' : Cpu} {es fs : List Entry} (h : Moves c es c')
    (h' : Moves c' fs c'') : Moves c (es ++ fs) c'' := by
  induction h with
  | refl => exact h'
  | step h _ ih =>
    rw [List.append_assoc]
    exact .step h (ih h')

section Servicing

variable (c : Cpu) (b : β)

theorem request_on (kind : Interrupt) : ∃ ns, (request kind).on c b =
    ⟨.ok c.pending.isNone, c.latch (c.pending.or (some kind)), b, ns⟩ := by
  cases hp : c.pending with
  | none => exact ⟨[], by simp [request, hp]⟩
  | some pending =>
    have same : c.latch (some pending) = c := by rw [← hp]; rfl
    exact ⟨[.log (.dropped kind pending)], by simp [request, hp, same]⟩

variable {c b} in
theorem servicing_of_ok (h : (service.on c b).outcome = .ok ()) :
    ∃ es, c.Servicing es (.done (service.on c b).state ()) ∧
      Answers b es (service.on c b).bus ∧ c.serviceEntries b = Entry.ofNotes (notes es) := by
  obtain ⟨o, b', servicing, answered, ended, ns⟩ := (service_ensures c).on b
  have record : c.serviceEntries b = Entry.ofNotes (service.on c b).notes := by
    unfold serviceEntries
    rw [h]
  rw [record, ns]
  rw [h] at ended
  generalize (service.on c b).state = c', (service.on c b).bus = b₁ at ended ⊢
  cases ended
  exact ⟨_, servicing, answered, rfl⟩

theorem move_of_service : Move c (c.serviceEntries b) (service.on c b).state := by
  obtain ⟨o, b', servicing, -, ended, ns⟩ := (service_ensures c).on b
  unfold serviceEntries
  rw [ns]
  generalize (service.on c b).outcome = r at ended ⊢
  generalize (service.on c b).state = c' at ended ⊢
  generalize (service.on c b).bus = b₁ at ended
  cases ended with
  | done => exact .serviced servicing
  | abort | refusedRead | refusedWrite | refusedPoll => exact .lost servicing

theorem move_of_reset : Move c (c.resetEntries b) (reset.on c b).state := by
  unfold resetEntries
  rw [reset_on]
  obtain ⟨o, b', servicing, -, ended, -⟩ := (service_ensures (c.latch (some .reset))).on b
  generalize (service.on (c.latch (some .reset)) b).outcome = r at ended ⊢
  generalize (service.on (c.latch (some .reset)) b).state = c' at ended ⊢
  generalize (service.on (c.latch (some .reset)) b).bus = b₁ at ended
  cases ended with
  | done => exact .restarted servicing
  | abort | refusedRead | refusedWrite | refusedPoll =>
    rw [List.append_nil]
    exact .notRestarted servicing

theorem moves_of_settle : Moves c (c.settleEntries b) (settle.on c b).state := by
  rcases hp : Bus.poll b with ⟨f | line, b'⟩
  · rw [settle_on_of_fault c hp, settleEntries, hp]
    exact .refl c
  · obtain ⟨ns, run⟩ := settle_on c hp
    rw [run, settleEntries_of_poll hp]
    have serviced := (move_of_service (c.latch (c.latched line)) b').moves
    unfold latched at serviced ⊢
    cases line with
    | false =>
      have same : c.latch (c.pending.or (if false = true then some .irq else none)) = c := by
        simp [latch]
      rw [same] at serviced ⊢
      exact serviced
    | true => exact (Move.requested .irq).moves.trans serviced

end Servicing

end Cpu

namespace Machine

variable {β ω : Type}

theorem cpu_log (m : Machine β ω) (line : LogLine) : (m.log line).cpu = m.cpu :=
  congrArg Engine.cpu (Same.log m line).engine

theorem cpu_begin (m : Machine β ω) : m.begin.cpu = { m.cpu with holdPc := false } :=
  (congrArg Engine.cpu (same_begin m).engine :)

variable [Bus β]

theorem cpu_performCpu {α : Type} (p : Micro Cpu α) (m : Machine β ω) :
    (m.performCpu p).2.cpu = (p.on m.cpu m.bus).state := by
  rw [performCpu_eq]

/-- An `RTI` at the program counter gets as far as the status byte, which it pops first. -/
def popsStatus (m : Machine β ω) : Bool :=
  match Bus.read m.bus m.cpu.regs.pc with
  | (.ok opcode, b) =>
    opcode == 0x40 && (Bus.read b (Cpu.stackAddr (m.cpu.regs.sp + 1))).1.isOk
  | (.error _, _) => false

theorem popsStatus_of_answers {m : Machine β ω} {b : β} {p : Byte} {es : List Event}
    (h : Answers m.bus (.access ⟨.read, m.cpu.regs.pc, 0x40⟩ ::
      .access ⟨.read, Cpu.stackAddr (m.cpu.regs.sp + 1), p⟩ :: es) b) : m.popsStatus = true := by
  cases h with
  | read fetched rest =>
    cases rest with
    | read popped _ =>
      simp only [popsStatus, fetched, popped]
      rfl

variable [Observer ω]

def entries (m : Machine β ω) : List Entry :=
  match m.instruct.outcome with
  | .error (.error _) => []
  | .error (.fault _) => if m.popsStatus then [.halfReturned] else []
  | .ok view =>
    Entry.ofInstruction view.instruction m.cpu.pending ++
      match (m.tell view).outcome with
      | .ok _ => m.instruct.state.settleEntries (m.tell view).bus
      | .error _ => []

theorem entries_of_ok {m : Machine β ω} {view : View} (hi : m.instruct.outcome = .ok view)
    (ht : (m.tell view).outcome = .ok ()) :
    m.entries = Entry.ofInstruction view.instruction m.cpu.pending ++
      m.instruct.state.settleEntries (m.tell view).bus := by
  simp only [entries, hi, ht]

def entriesFrom : (count : Nat) → Machine β ω → List Entry
  | 0, _ => []
  | count + 1, m =>
    if m.stop then []
    else m.entries ++ match m.step with
      | (.ok (), m') => m'.entriesFrom count
      | (.error _, _) => []

/-- What a host may do to a machine between calls. To the latch it has access by calls alone. -/
structure Arrangement (β ω : Type) where
  act : Machine β ω → Machine β ω
  pending (m : Machine β ω) : (act m).cpu.pending = m.cpu.pending
  flags (m : Machine β ω) : (act m).cpu.regs.flags = m.cpu.regs.flags

inductive Call (β ω : Type) where
  | request (kind : Interrupt)
  | step
  | runFor (count : Nat)
  | startAt (addr : Addr) (fuel : Nat)
  | start (fuel : Nat)
  | service
  | reset
  | arrange (a : Arrangement β ω)

namespace Call

def perform (m : Machine β ω) : Call β ω → Machine β ω
  | .request kind => (m.performCpu (Cpu.request kind)).2
  | .step => m.step.2
  | .runFor count => (m.runFor count).2
  | .startAt addr fuel => ((m.startAt addr).resume fuel).machine
  | .start fuel =>
    match m.start with
    | (.ok (), m') => (m'.resume fuel).machine
    | (.error _, m') => m'
  | .service => (m.performCpu Cpu.service).2
  | .reset => (m.performCpu Cpu.reset).2
  | .arrange a => a.act m

def entries (m : Machine β ω) : Call β ω → List Entry
  | .request kind => [.request kind m.cpu.pending]
  | .step => m.entries
  | .runFor count => { m with stop := false }.entriesFrom count
  | .startAt addr fuel => (m.startAt addr).entriesFrom fuel
  | .start fuel =>
    m.cpu.resetEntries m.bus ++
      match m.start with
      | (.ok (), m') => m'.entriesFrom fuel
      | (.error _, _) => []
  | .service => m.cpu.serviceEntries m.bus
  | .reset => m.cpu.resetEntries m.bus
  | .arrange _ => []

end Call

def performs : List (Call β ω) → Machine β ω → Machine β ω
  | [], m => m
  | call :: calls, m => (call.perform m).performs calls

def record : List (Call β ω) → Machine β ω → List Entry
  | [], _ => []
  | call :: calls, m => call.entries m ++ (call.perform m).record calls

/-- A relation between processors, by way of what is put on record, that holds of nothing and of one
thing after the other. -/
structure Composes (R : Cpu → List Entry → Cpu → Prop) : Prop where
  refl (c : Cpu) : R c [] c
  trans {c c' c'' : Cpu} {es fs : List Entry} (h : R c es c') (h' : R c' fs c'') :
    R c (es ++ fs) c''

namespace Composes

variable {R : Cpu → List Entry → Cpu → Prop} (hR : Composes R)
  (step : ∀ m : Machine β ω, R m.cpu m.entries m.step.2.cpu) (m : Machine β ω)

include hR step

theorem runFrom (done count : Nat) :
    R m.cpu (m.entriesFrom count) (m.runFrom done count).2.cpu := by
  induction count generalizing m done with
  | zero => exact hR.refl m.cpu
  | succ count ih =>
    have first := step m
    rw [entriesFrom, Machine.runFrom]
    split
    · exact hR.refl m.cpu
    · rcases hs : m.step with ⟨why | _, m₁⟩ <;> rw [hs] at first
      · obtain ⟨e, hg⟩ := guardedStep_of_error hs
        rw [hg]
        simpa only [List.append_nil] using first
      · rw [guardedStep_eq_ok.2 hs]
        exact hR.trans first (ih m₁ (done + 1))

theorem resume (fuel : Nat) : R m.cpu (m.entriesFrom fuel) (m.resume fuel).machine.cpu := by
  induction fuel generalizing m with
  | zero =>
    rw [entriesFrom, Machine.resume]
    split
    · rw [Emulation.machine, cpu_log]
      exact hR.refl m.cpu
    · exact hR.refl m.cpu
  | succ fuel ih =>
    have first := step m
    rw [entriesFrom, Machine.resume]
    split
    · rw [Emulation.machine, cpu_log]
      exact hR.refl m.cpu
    · rcases hs : m.step with ⟨why | _, m₁⟩ <;> rw [hs] at first
      · obtain ⟨e, hg⟩ := guardedStep_of_error hs
        rw [hg]
        show R m.cpu _ (m₁.log (.failed e)).cpu
        rw [cpu_log]
        simpa only [List.append_nil] using first
      · rw [guardedStep_eq_ok.2 hs]
        exact hR.trans first (ih m₁)

end Composes

section Moves

variable (m : Machine β ω)

theorem move_of_instruct_error {why : Abort} (hi : m.instruct.outcome = .error why) :
    m.cpu.Move m.entries m.instruct.state := by
  unfold entries
  rw [hi]
  obtain ⟨o, b, course, answered, ended, -⟩ := m.cpu.instruction_ensures.on m.bus
  change Finish.Ended b o m.instruct.outcome m.instruct.state m.instruct.bus at ended
  rw [hi] at ended
  obtain ⟨cut, rfl⟩ : ∃ cut, o = .cut m.instruct.state cut := by
    generalize m.instruct.state = c, m.instruct.bus = b' at ended
    cases ended <;> exact ⟨_, rfl⟩
  cases why with
  | error e =>
    have refused := (m.cpu.instruction_ensures.on_error hi).1
    obtain ⟨_, _, -, -, refuses⟩ := refused.refuses
    exact .cutShort course (congrArg Registers.flags refuses.regs)
  | fault f =>
    cases hp : m.popsStatus with
    | true => exact .halfReturned course
    | false =>
      rcases course.flags_of_cut with kept | ⟨p, rest, pops⟩
      · exact .cutShort course kept
      · rw [pops] at answered
        rw [popsStatus_of_answers answered] at hp
        cases hp

theorem moves_of_step : m.cpu.Moves m.entries m.step.2.cpu := by
  cases hi : m.instruct.outcome with
  | error why =>
    rw [step_of_failed hi]
    exact (m.move_of_instruct_error hi).moves
  | ok view =>
    have course := (m.cpu.instruction_ensures.on_ok hi).1
    have completed : m.cpu.Moves _ m.instruct.state := (Cpu.Move.completed course).moves
    cases ht : (m.tell view).outcome with
    | error why =>
      rw [cpu_of_tell_failed hi ht]
      simpa only [entries, hi, ht, List.append_nil] using completed
    | ok _ =>
      obtain ⟨-, engine, -⟩ := step_of_told hi ht
      rw [entries_of_ok hi ht, engine]
      exact completed.trans (m.instruct.state.moves_of_settle (m.tell view).bus)

theorem moves_compose : Composes Cpu.Moves := ⟨.refl, .trans⟩

theorem moves_of_runFrom (done count : Nat) :
    m.cpu.Moves (m.entriesFrom count) (m.runFrom done count).2.cpu :=
  moves_compose.runFrom moves_of_step m done count

theorem moves_of_resume (fuel : Nat) :
    m.cpu.Moves (m.entriesFrom fuel) (m.resume fuel).machine.cpu :=
  moves_compose.resume moves_of_step m fuel

theorem moves_of_call (call : Call β ω) :
    m.cpu.Moves (call.entries m) (call.perform m).cpu := by
  cases call with
  | request kind =>
    obtain ⟨ns, run⟩ := m.cpu.request_on m.bus kind
    simp only [Call.perform, Call.entries, cpu_performCpu, run]
    exact (Cpu.Move.requested kind).moves
  | step => exact m.moves_of_step
  | runFor count => exact moves_of_runFrom { m with stop := false } 0 count
  | startAt addr fuel =>
    -- placing the program counter is for the host to do
    have placed : m.cpu.Move [] (m.startAt addr).cpu := by
      rw [startAt, cpu_begin]
      exact .arranged rfl rfl
    exact .step placed ((m.startAt addr).moves_of_resume fuel)
  | start fuel =>
    have reset := (m.cpu.move_of_reset m.bus).moves
    rw [← cpu_performCpu] at reset
    simp only [Call.perform, Call.entries, start]
    generalize m.performCpu Cpu.reset = performed at reset ⊢
    obtain ⟨why | _, m₁⟩ := performed
    · simpa only [List.append_nil] using reset
    · have placed : m₁.cpu.Move [] m₁.begin.cpu := by
        rw [cpu_begin]
        exact .arranged rfl rfl
      exact reset.trans (.step placed (m₁.begin.moves_of_resume fuel))
  | service =>
    simp only [Call.perform, Call.entries, cpu_performCpu]
    exact (m.cpu.move_of_service m.bus).moves
  | reset =>
    simp only [Call.perform, Call.entries, cpu_performCpu]
    exact (m.cpu.move_of_reset m.bus).moves
  | arrange a => exact (Cpu.Move.arranged (a.pending m) (a.flags m)).moves

theorem moves_of_calls (calls : List (Call β ω)) :
    m.cpu.Moves (m.record calls) (m.performs calls).cpu := by
  induction calls generalizing m with
  | nil => exact .refl m.cpu
  | cons call calls ih => exact (m.moves_of_call call).trans (ih (call.perform m))

end Moves

end Machine

end Mos6502
