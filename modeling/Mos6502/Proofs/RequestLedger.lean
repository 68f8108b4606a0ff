import Mathlib.Data.List.Basic
import Mos6502.Proofs.Session

namespace Mos6502

namespace Entry

def accepted? : Entry → Option Interrupt
  | .accepted kind => some kind
  | _ => none

def serviced? : Entry → Option Interrupt
  | .serviced kind => some kind
  | _ => none

def overwritten? : Entry → Option Interrupt
  | .overwritten kind => some kind
  | _ => none

/-- The request that was serviced or masked. -/
def handled? : Entry → Option Interrupt
  | .serviced kind => some kind
  | .masked => some .irq
  | _ => none

/-- The request that left the latch. -/
def released? : Entry → Option Interrupt
  | .overwritten kind | .lost kind => some kind
  | e => e.handled?

end Entry

def accepted (es : List Entry) : List Interrupt := es.filterMap Entry.accepted?

def handled (es : List Entry) : List Interrupt := es.filterMap Entry.handled?

def released (es : List Entry) : List Interrupt := es.filterMap Entry.released?

section Lists

variable (es fs : List Entry)

@[simp] theorem accepted_append : accepted (es ++ fs) = accepted es ++ accepted fs :=
  List.filterMap_append

@[simp] theorem released_append : released (es ++ fs) = released es ++ released fs :=
  List.filterMap_append

theorem released_eq_handled {es : List Entry} (h : ∀ e ∈ es, e.released? = e.handled?) :
    released es = handled es := List.filterMap_congr h

theorem length_released (h : ∀ kind, .lost kind ∉ es) : (released es).length =
    (es.filterMap Entry.serviced?).length + es.count .masked +
      (es.filterMap Entry.overwritten?).length := by
  induction es with
  | nil => rfl
  | cons e es ih =>
    have rest := ih fun kind member => h kind (List.mem_cons_of_mem e member)
    unfold released at rest ⊢
    cases e with
    | lost kind => exact absurd List.mem_cons_self (h kind)
    | serviced | masked | overwritten =>
      simp [List.filterMap_cons, Entry.released?, Entry.handled?, Entry.serviced?,
        Entry.overwritten?, rest]
      omega
    | completed | halfReturned | accepted | refused | restarted =>
      simp [List.filterMap_cons, Entry.released?, Entry.handled?, Entry.serviced?,
        Entry.overwritten?, rest]

end Lists

/-- What was latched before and what was accepted since has left the latch or is latched now. -/
def Balanced (before : Option Interrupt) (es : List Entry) (after : Option Interrupt) : Prop :=
  before.toList ++ accepted es = released es ++ after.toList

theorem Balanced.append {p p' p'' : Option Interrupt} {es fs : List Entry}
    (h : Balanced p es p') (h' : Balanced p' fs p'') : Balanced p (es ++ fs) p'' := by
  unfold Balanced at h h' ⊢
  rw [accepted_append, released_append, ← List.append_assoc, h, List.append_assoc, h',
    List.append_assoc]

theorem Balanced.nothing (p : Option Interrupt) : Balanced p [] p := List.append_nil _

theorem Balanced.request (kind : Interrupt) (p : Option Interrupt) :
    Balanced p [.request kind p] (p.or (some kind)) := by
  cases p <;> rfl

theorem Balanced.overwritten (p : Option Interrupt) :
    Balanced p (p.toList.map .overwritten) none := by
  cases p <;> rfl

theorem Balanced.lost (p : Option Interrupt) : Balanced p (p.toList.map .lost) none := by
  cases p <;> rfl

theorem Balanced.ofInstruction (i : Instruction) (p : Option Interrupt) :
    Balanced p (Entry.ofInstruction i p)
      (p.or (if i.mnemonic = .BRK then some .brk else none)) := by
  unfold Entry.ofInstruction
  split
  · cases p <;> rfl
  · rw [Option.or_none]
    exact .nothing p

theorem Entry.mem_ofNotes {ns : List Note} {e : Entry} (h : e ∈ ofNotes ns) :
    (∃ kind, e = .serviced kind) ∨ e = .masked := by
  obtain ⟨n, -, hn⟩ := List.mem_filterMap.1 h
  unfold ofNote? at hn
  split at hn
  · cases hn
    exact .inl ⟨_, rfl⟩
  · cases hn
    exact .inr rfl
  · cases hn

theorem Entry.request_eq (kind : Interrupt) (p : Option Interrupt) :
    [request kind p] = [if p.isNone then .accepted kind else .refused kind] := by
  cases p <;> rfl

theorem Entry.released_request (kind : Interrupt) (p : Option Interrupt) :
    (request kind p).released? = (request kind p).handled? := by
  cases p <;> rfl

theorem Entry.released_ofInstruction {i : Instruction} {p : Option Interrupt} {e : Entry}
    (h : e ∈ ofInstruction i p) : e.released? = e.handled? := by
  unfold ofInstruction at h
  split at h
  · rcases List.mem_cons.1 h with rfl | completed
    · exact released_request .brk p
    · obtain rfl := List.mem_singleton.1 completed
      rfl
  · obtain rfl := List.mem_singleton.1 h
    rfl

theorem accepted_ofNotes (ns : List Note) : accepted (Entry.ofNotes ns) = [] := by
  refine List.filterMap_eq_nil_iff.2 fun e member => ?_
  rcases Entry.mem_ofNotes member with ⟨kind, rfl⟩ | rfl <;> rfl

theorem released_ofNotes (ns : List Note) :
    released (Entry.ofNotes ns) = handled (Entry.ofNotes ns) := by
  refine released_eq_handled fun e member => ?_
  rcases Entry.mem_ofNotes member with ⟨kind, rfl⟩ | rfl <;> rfl

namespace Cpu

variable {c c' : Cpu} {es : List Event}

theorem Servicing.handled (h : c.Servicing es (.done c' ())) :
    handled (Entry.ofNotes (notes es)) = c.pending.toList := by
  cases h with
  | idle hp =>
    rw [hp]
    rfl
  | masked hp hm =>
    rw [hp, hm.1]
    rfl
  | entered hp =>
    rw [hp, notes_append, notes_map_access]
    rfl

theorem Servicing.balanced (h : c.Servicing es (.done c' ())) :
    Balanced c.pending (Entry.ofNotes (notes es)) none := by
  unfold Balanced
  rw [accepted_ofNotes, released_ofNotes, h.handled]
  rfl

theorem Move.balanced {es : List Entry} (h : c.Move es c') :
    Balanced c.pending es c'.pending := by
  cases h with
  | requested kind => exact .request kind c.pending
  | completed h =>
    obtain ⟨-, -, -, -, -, latched⟩ := h.of_done
    rw [latched]
    exact .ofInstruction _ c.pending
  | cutShort h | halfReturned h =>
    rw [h.pending_of_cut]
    exact .nothing c.pending
  | serviced h =>
    rw [h.pending_of_done]
    exact h.balanced
  | lost h =>
    rw [h.pending_of_cut]
    exact .lost c.pending
  | restarted h =>
    rw [h.pending_of_done]
    exact (Balanced.overwritten c.pending).append (.nothing none)
  | notRestarted h =>
    rw [h.pending_of_cut]
    exact .overwritten c.pending
  | arranged hp =>
    rw [hp]
    exact .nothing c.pending

theorem Moves.balanced {es : List Entry} (h : c.Moves es c') :
    Balanced c.pending es c'.pending := by
  induction h with
  | refl c => exact .nothing c.pending
  | step h _ ih => exact h.balanced.append ih

section Unfaulted

variable {β : Type} [Bus β] {b : β} (c : Cpu) (hf : Bus.NeverFaults b)

include hf

theorem released_serviceEntries {e : Entry} (h : e ∈ c.serviceEntries b) :
    e.released? = e.handled? := by
  obtain ⟨es, -, -, record⟩ := servicing_of_ok (c.service_of_neverFaults hf)
  rw [record] at h
  rcases Entry.mem_ofNotes h with ⟨kind, rfl⟩ | rfl <;> rfl

theorem released_settleEntries {e : Entry} (h : e ∈ c.settleEntries b) :
    e.released? = e.handled? := by
  obtain ⟨line, b', polled, hf'⟩ := hf.polls
  rw [settleEntries_of_poll polled] at h
  rcases List.mem_append.1 h with requested | serviced
  · split at requested
    · obtain rfl := List.mem_singleton.1 requested
      exact Entry.released_request .irq c.pending
    · cases requested
  · exact released_serviceEntries _ hf' serviced

end Unfaulted

end Cpu

namespace Machine

variable {β ω : Type} [Bus β] [Observer ω]

/-- A call that makes nothing fault. -/
def Call.Harmless : Call β ω → Prop
  | .arrange a => ∀ m, m.Faultless → (a.act m).Faultless
  | _ => True

namespace Faultless

variable {m m' : Machine β ω}

theorem performs_call (h : m.Faultless) {call : Call β ω} (hc : call.Harmless) :
    (call.perform m).Faultless := by
  cases call with
  | request kind =>
    obtain ⟨ns, run⟩ := m.cpu.request_on m.bus kind
    show (m.performCpu (Cpu.request kind)).2.Faultless
    rw [performCpu_eq, run]
    exact h.of_eq rfl rfl
  | step => exact h.step
  | runFor count => exact h.runFor count
  | startAt addr fuel => exact (h.startAt addr).resume fuel
  | start fuel =>
    obtain ⟨m₁, -, started, faultless, -⟩ := h.start
    simp only [Call.perform, started]
    exact faultless.begin.resume fuel
  | service =>
    obtain ⟨m₁, performed, faultless, -⟩ := h.service
    simp only [Call.perform, performed]
    exact faultless
  | reset =>
    obtain ⟨m₁, performed, faultless, -⟩ := h.reset
    simp only [Call.perform, performed]
    exact faultless
  | arrange a => exact hc m h

theorem released_entries (h : m.Faultless) {e : Entry} (he : e ∈ m.entries) :
    e.released? = e.handled? := by
  unfold entries at he
  split at he
  · cases he
  · split at he
    · obtain rfl := List.mem_singleton.1 he
      rfl
    · cases he
  · rename_i view hi
    rcases List.mem_append.1 he with completed | settled
    · exact Entry.released_ofInstruction completed
    · split at settled
      · rename_i ht
        have answered := (m.cpu.instruction_ensures.on_ok hi).2
        have told : Bus.NeverFaults (m.tell view).bus :=
          Bus.NeverFaults.later h.bus (answered.append (serves_told ht))
        exact Cpu.released_settleEntries _ told settled
      · cases settled

theorem released_entriesFrom (h : m.Faultless) {count : Nat} {e : Entry}
    (he : e ∈ m.entriesFrom count) : e.released? = e.handled? := by
  induction count generalizing m with
  | zero => cases he
  | succ count ih =>
    rw [entriesFrom] at he
    split at he
    · cases he
    · rcases List.mem_append.1 he with first | rest
      · exact h.released_entries first
      · have next := h.step
        rcases hs : m.step with ⟨why | _, m₁⟩ <;> rw [hs] at next rest
        · cases rest
        · exact ih next rest

theorem not_lost_of_call (h : m.Faultless) (call : Call β ω) (kind : Interrupt) :
    .lost kind ∉ call.entries m := by
  have handled_or : ∀ {e : Entry}, e.released? = e.handled? → e ≠ .lost kind := by
    rintro e he rfl
    cases he
  have unreset : .lost kind ∉ m.cpu.resetEntries m.bus := by
    unfold Cpu.resetEntries
    split <;> simp
  intro lost
  cases call with
  | request other =>
    exact handled_or (Entry.released_request other m.cpu.pending) (List.mem_singleton.1 lost).symm
  | step => exact handled_or (h.released_entries lost) rfl
  | runFor count => exact handled_or (h.unstopped.released_entriesFrom lost) rfl
  | startAt addr fuel => exact handled_or ((h.startAt addr).released_entriesFrom lost) rfl
  | start fuel =>
    obtain ⟨m₁, -, started, faultless, -⟩ := h.start
    simp only [Call.entries, started] at lost
    rcases List.mem_append.1 lost with reset | run
    · exact unreset reset
    · exact handled_or (faultless.begin.released_entriesFrom run) rfl
  | service => exact handled_or (m.cpu.released_serviceEntries h.bus lost) rfl
  | reset => exact unreset lost
  | arrange a => cases lost

theorem not_lost (h : m.Faultless) {calls : List (Call β ω)} (hc : ∀ call ∈ calls, call.Harmless)
    (kind : Interrupt) : .lost kind ∉ m.record calls := by
  induction calls generalizing m with
  | nil => exact List.not_mem_nil
  | cons call calls ih =>
    intro lost
    rcases List.mem_append.1 lost with first | rest
    · exact h.not_lost_of_call call kind first
    · exact ih (h.performs_call (hc call List.mem_cons_self))
        (fun other member => hc other (List.mem_cons_of_mem call member)) rest

theorem step_failed (h : m.Faultless) {why : Abort} (hs : m.step.1 = .error why) :
    m.entries = [] ∧ m.step.2.cpu.pending = m.cpu.pending := by
  obtain ⟨opcode, -, outcome⟩ := h.step_verdict
  obtain ⟨e, rfl, -⟩ := Cpu.isRefusal_of_verdict (outcome.symm.trans hs)
  have hi := instruct_of_step_eq_error hs
  have course := (m.cpu.instruction_ensures.on_error hi).1
  rw [step_of_failed hi]
  exact ⟨by simp only [entries, hi], course.pending_of_cut⟩

theorem step_completed (h : m.Faultless) (hs : m.step.1 = .ok ()) :
    m.step.2.cpu.pending = none ∧
      handled m.entries = m.cpu.pending.toList ++ accepted m.entries := by
  have completes : m.step = (.ok (), m.step.2) := Prod.ext hs rfl
  obtain ⟨view, -, -, settled, engine, -⟩ := step_eq_ok completes
  have empty : m.step.2.cpu.pending = none := by
    rw [engine]
    exact ((Cpu.settle_ensures m.instruct.state).on_ok settled).1.pending_of_done
  have books := m.moves_of_step.balanced
  unfold Balanced at books
  rw [empty, released_eq_handled fun e => h.released_entries] at books
  exact ⟨empty, by simpa using books.symm⟩

theorem performs (h : m.Faultless) {calls : List (Call β ω)} (hc : ∀ call ∈ calls, call.Harmless) :
    (m.performs calls).Faultless := by
  induction calls generalizing m with
  | nil => exact h
  | cons call calls ih =>
    exact ih (h.performs_call (hc call List.mem_cons_self))
      fun other member => hc other (List.mem_cons_of_mem call member)

theorem service_empties (h : m.Faultless) : ∃ m', m.performCpu Cpu.service = (.ok (), m') ∧
    m'.cpu.pending = none ∧ handled (Call.service.entries m) = m.cpu.pending.toList := by
  have completes := m.cpu.service_of_neverFaults h.bus
  obtain ⟨es, servicing, -, record⟩ := Cpu.servicing_of_ok completes
  obtain ⟨m₁, performed, engine, -⟩ := performCpu_of_ok completes
  refine ⟨m₁, performed, ?_, ?_⟩
  · rw [engine]
    exact servicing.pending_of_done
  · show handled (m.cpu.serviceEntries m.bus) = _
    rw [record]
    exact servicing.handled

theorem reset_empties (h : m.Faultless) : ∃ m', m.performCpu Cpu.reset = (.ok (), m') ∧
    m'.cpu.pending = none ∧
      Call.reset.entries m = m.cpu.pending.toList.map .overwritten ++ [.restarted] := by
  have reset : (m.modifyCpu (Cpu.latch (some .reset))).Faultless := h.of_eq rfl rfl
  obtain ⟨m₁, performed, empty, -⟩ := reset.service_empties
  rw [← performCpu_reset] at performed
  refine ⟨m₁, performed, empty, ?_⟩
  show m.cpu.resetEntries m.bus = _
  unfold Cpu.resetEntries
  rw [Cpu.reset_on, Cpu.service_of_neverFaults _ h.bus]

end Faultless

/-- The books of a session that begins with an empty latch, on a machine in which nothing faults. All
requests that were accepted have left the latch in their order, but for the one that is latched now;
each was serviced, masked, or overwritten by a reset. A request is accepted just if the latch is
empty, and changes nothing otherwise. Only steps that complete, servicing and resets empty it. -/
theorem requests_are_accounted_for {m : Machine β ω} (hf : m.Faultless)
    (hp : m.cpu.pending = none) {calls : List (Call β ω)} (hc : ∀ call ∈ calls, call.Harmless) :
    let es := m.record calls
    let m' := m.performs calls
    accepted es = released es ++ m'.cpu.pending.toList ∧ (∀ kind, .lost kind ∉ es) ∧
    (accepted es).length = (es.filterMap Entry.serviced?).length + es.count .masked +
      (es.filterMap Entry.overwritten?).length + m'.cpu.pending.toList.length ∧
    (∀ kind, ∃ answer m'', m'.performCpu (Cpu.request kind) = (.ok answer, m'') ∧
      (Call.request kind).entries m' = [if answer then .accepted kind else .refused kind] ∧
      m''.cpu = { m'.cpu with pending := m'.cpu.pending.or (some kind) }) ∧
    (∀ why, m'.step.1 = .error why →
      m'.entries = [] ∧ m'.step.2.cpu.pending = m'.cpu.pending) ∧
    (m'.step.1 = .ok () → m'.step.2.cpu.pending = none ∧
      handled m'.entries = m'.cpu.pending.toList ++ accepted m'.entries) ∧
    (∃ m'', m'.performCpu Cpu.service = (.ok (), m'') ∧ m''.cpu.pending = none ∧
      handled (Call.service.entries m') = m'.cpu.pending.toList) ∧
    ∃ m'', m'.performCpu Cpu.reset = (.ok (), m'') ∧ m''.cpu.pending = none ∧
      Call.reset.entries m' = m'.cpu.pending.toList.map .overwritten ++ [.restarted] := by
  intro es m'
  have reached : m'.Faultless := hf.performs hc
  have books : Balanced m.cpu.pending es m'.cpu.pending := (m.moves_of_calls calls).balanced
  unfold Balanced at books
  rw [hp] at books
  have unlost := hf.not_lost hc
  have list : accepted es = released es ++ m'.cpu.pending.toList := books
  refine ⟨list, unlost, ?_, fun kind => ?_, fun why => reached.step_failed,
    reached.step_completed, reached.service_empties, reached.reset_empties⟩
  · rw [list, List.length_append, length_released es unlost]
  · obtain ⟨ns, run⟩ := m'.cpu.request_on m'.bus kind
    rw [performCpu_eq, run]
    exact ⟨_, _, rfl, Entry.request_eq kind m'.cpu.pending, rfl⟩

/-- An opcode that is not documented, and handlers at which the line makes its request. -/
def contended : Machine Wired Empty where
  cpu := { regs := { pc := 0x8000 } }
  bus := {
    memory := ((Memory.zero.write 0x8000 0x02).write 0xA000 0xEA).store 0xFFFA
      [0x00, 0x90, 0x00, 0x80, 0x00, 0xA0] }

def raising : Arrangement Wired Empty where
  act m := { m with bus := { m.bus with line := true } }
  pending _ := rfl
  flags _ := rfl

def contending : List (Call Wired Empty) :=
  [.request .nmi, .step, .request .irq, .service, .arrange raising, .step, .runFor 1,
    .request .nmi, .reset]

theorem contending_is_accounted_for :
    contended.record contending =
      [.accepted .nmi, .refused .irq, .serviced .nmi, .accepted .brk,
        .completed ⟨0x00, .BRK, .implicit⟩, .refused .irq, .serviced .brk,
        .completed ⟨0xEA, .NOP, .implicit⟩, .accepted .irq, .masked, .accepted .nmi,
        .overwritten .nmi, .restarted] ∧
    released (contended.record contending) = [.nmi, .brk, .irq, .nmi] := by
  have faultless : contended.Faultless := ⟨Wired.neverFaults, by simp [contended]⟩
  have raises (m : Machine Wired Empty) (h : m.Faultless) : (raising.act m).Faultless :=
    ⟨Wired.neverFaults, h.observers⟩
  have harmless : ∀ call ∈ contending, call.Harmless := by
    simpa [contending, Call.Harmless] using raises
  obtain ⟨books, -⟩ := requests_are_accounted_for faultless rfl harmless
  have empty : (contended.performs contending).cpu.pending = none := rfl
  have record : contended.record contending =
      [.accepted .nmi, .refused .irq, .serviced .nmi, .accepted .brk,
        .completed ⟨0x00, .BRK, .implicit⟩, .refused .irq, .serviced .brk,
        .completed ⟨0xEA, .NOP, .implicit⟩, .accepted .irq, .masked, .accepted .nmi,
        .overwritten .nmi, .restarted] := rfl
  rw [empty, Option.toList_none, List.append_nil] at books
  exact ⟨record, books.symm⟩

end Machine

end Mos6502
