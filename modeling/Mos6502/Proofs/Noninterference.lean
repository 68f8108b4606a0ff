import Mos6502.Observer.Standard
import Mos6502.Proofs.Simulation
import Mos6502.Proofs.Unobserved

namespace Mos6502

namespace Probe

variable {ω σ : Type}

/-- What the observer becomes, and what it does with the request to stop or its fault, where memory
holds the bytes `cell`. -/
def result (cell : Addr → Byte) : Probe ω → ω × Except Fault Control
  | .done self control => (self, .ok control)
  | .fault self f => (self, .error f)
  | .read _ addr next | .peek addr next => (next (cell addr)).result cell
  | .print _ next | .log _ next | .keep _ next | .pause _ next => next.result cell

theorem Safe.result {P : ω → Control → Prop} {p : Probe ω} (h : p.Safe P) (cell : Addr → Byte) :
    ∃ control, (p.result cell).2 = .ok control ∧ P (p.result cell).1 control := by
  induction p with
  | done _ control => exact ⟨control, rfl, h⟩
  | fault _ _ => exact h.elim
  | read _ _ _ ih | peek _ _ ih => exact ih _ (h _)
  | print _ _ ih | log _ _ ih | keep _ _ ih | pause _ _ ih => exact ih h

theorem activity_on (position : Nat) (put : ω → σ) (p : Probe ω) (mem : Memory) :
    ∃ ns, (p.activity position put).on mem =
      ⟨((p.result mem.read).2.map fun control => ((p.result mem.read).1, control)).mapError .fault,
        put (p.result mem.read).1, mem, ns⟩ := by
  induction p with
  | done _ _ | fault _ _ => exact ⟨_, rfl⟩
  | read _ _ _ ih | peek _ _ ih => exact ih _
  | print _ _ ih | log _ _ ih | keep _ _ ih | pause _ _ ih =>
    obtain ⟨ns, h⟩ := ih
    simp only [activity, Activity.on, h]
    exact ⟨_, rfl⟩

end Probe

namespace Observer

variable {ω : Type} [Observer ω]

/-- Observers of which `P` holds never fault, and they do not mind what others ask for, nor take it
back. -/
structure Independent (P : ω → Prop) : Prop where
  keeps : KeepsRequests P
  heedless {o : ω} (h : P o) (view : View) (stop : Bool) : notify view stop o = notify view false o

def answer (view : View) (mem : Memory) (o : ω) : ω × Control :=
  let r := (notify view false o).result mem.read
  (r.1, r.2.toOption.getD .leave)

def asks (view : View) (mem : Memory) (o : ω) : Bool := (answer view mem o).2 = .ask

end Observer

namespace Engine

variable {ω : Type} [Observer ω] {P : ω → Prop} (hi : Observer.Independent P) (view : View)
  (mem : Memory)

include hi

theorem tell_on {o : ω} (ho : P o) (before rest : List ω) (stop : Bool) (e : Engine ω) :
    (Observer.answer view mem o).2 ≠ .withdraw ∧ ∃ ns, (tell view before rest stop o).on e mem =
      ⟨.ok (Observer.answer view mem o),
        { e with observers := before ++ (Observer.answer view mem o).1 :: rest }, mem, ns⟩ := by
  obtain ⟨control, h, -, stands⟩ := (hi.keeps o ho view false).result mem.read
  have told : Observer.answer view mem o =
      (((Observer.notify view false o).result mem.read).1, control) := by
    simp only [Observer.answer, h]
    rfl
  obtain ⟨ns, run⟩ := Probe.activity_on before.length
    (fun self => { e with observers := before ++ self :: rest }) (Observer.notify view false o) mem
  rw [h] at run
  rw [told]
  refine ⟨stands, ns, ?_⟩
  show ((Observer.notify view stop o).activity before.length _).on mem = _
  rw [hi.heedless ho]
  exact run

theorem notifyFrom_on {before rest : List ω} (ho : ∀ o ∈ rest, P o) (stop : Bool) {e : Engine ω}
    (he : e.observers = before ++ rest) :
    ∃ ns, (notifyFrom view before rest stop).on e mem =
      ⟨.ok (stop || rest.any (Observer.asks view mem)),
        { e with observers := before ++ rest.map fun o => (Observer.answer view mem o).1 }, mem,
        ns⟩ := by
  induction rest generalizing before stop e with
  | nil =>
    refine ⟨[], ?_⟩
    rw [List.any_nil, Bool.or_false, List.map_nil, ← he]
    rfl
  | cons o rest ih =>
    obtain ⟨stands, ns, first⟩ := tell_on hi view mem (ho o List.mem_cons_self) before rest stop e
    have request : (Observer.answer view mem o).2.apply stop =
        (stop || Observer.asks view mem o) := by
      unfold Observer.asks
      cases hc : (Observer.answer view mem o).2 with
      | leave => exact (Bool.or_false stop).symm
      | ask => exact (Bool.or_true stop).symm
      | withdraw => exact absurd hc stands
    have placed : ({ e with observers := before ++ (Observer.answer view mem o).1 :: rest } :
        Engine ω).observers = (before ++ [(Observer.answer view mem o).1]) ++ rest :=
      List.append_cons before _ rest
    obtain ⟨ms, later⟩ := ih (fun o' member => ho o' (List.mem_cons_of_mem o member))
      ((Observer.answer view mem o).2.apply stop) placed
    refine ⟨ns ++ ms, ?_⟩
    rw [notifyFrom_cons, Micro.on_bind, first, Ending.andThen_ok, later, Ending.after_mk, request]
    simp [Bool.or_assoc]

theorem notify_on {e : Engine ω} (ho : ∀ o ∈ e.observers, P o) :
    ∃ ns, (notify view).on e mem =
      ⟨.ok (), { e with
        observers := e.observers.map fun o => (Observer.answer view mem o).1
        stop := e.stop || e.observers.any (Observer.asks view mem) }, mem, ns⟩ := by
  obtain ⟨ns, run⟩ := notifyFrom_on hi view mem ho false (List.nil_append _).symm
  refine ⟨ns, ?_⟩
  unfold notify
  simp only [Micro.on_bind, Micro.on_get, Ending.andThen_ok, Ending.after_nil, run]
  cases e.observers.any (Observer.asks view mem)
  · simp
  · simp

end Engine

namespace Machine

section Agreement

variable {β ω : Type} [Bus β] [Observer ω]

/-- No observer faults in the next `n` steps, if the bus does not. -/
def Undisturbed (n : Nat) (m : Machine β ω) : Prop :=
  ∀ k < n, ∀ f, (m.after k).step.1 ≠ .error (.fault f)

theorem undisturbed_of_neverFaults {m : Machine Memory ω}
    (ho : ∀ o ∈ m.observers, Observer.NeverFaults o) (n : Nat) : m.Undisturbed n := by
  have kept (k : Nat) : ∀ o ∈ (m.after k).observers, Observer.NeverFaults o := by
    induction k with
    | zero => exact ho
    | succ k ih =>
      rw [after_succ]
      exact (step_keeps Observer.keeps_neverFaults Memory.neverFaults ih).2
  intro k _
  exact (step_keeps Observer.keeps_neverFaults Memory.neverFaults (kept k)).1

variable {ω' : Type} [Observer ω']

theorem after_agree (hq : Bus.Quiet β) {m : Machine β ω} {m' : Machine β ω'}
    (hc : m'.cpu = m.cpu) (hb : m'.bus = m.bus) {n : Nat} (h : m.Undisturbed n)
    (h' : m'.Undisturbed n) : ∀ k ≤ n,
      (m'.after k).cpu = (m.after k).cpu ∧ (m'.after k).bus = (m.after k).bus := by
  intro k
  induction k with
  | zero => exact fun _ => ⟨hc, hb⟩
  | succ k ih =>
    intro hk
    obtain ⟨cpu, bus⟩ := ih (Nat.le_of_succ_le hk)
    obtain ⟨-, left, leftBus⟩ := step_eq_cycle hq (h k hk)
    obtain ⟨-, right, rightBus⟩ := step_eq_cycle hq (h' k hk)
    rw [after_succ, after_succ, left, leftBus, right, rightBus, cpu, bus]
    exact ⟨rfl, rfl⟩

end Agreement

/-- The same machine with its observers in another order, of all of which `P` holds. -/
structure Shuffled {ω : Type} (P : ω → Prop) (m m' : Machine Memory ω) : Prop where
  cpu : m'.cpu = m.cpu
  bus : m'.bus = m.bus
  stop : m'.stop = m.stop
  observers : m'.observers.Perm m.observers
  holds : ∀ o ∈ m.observers, P o

namespace Shuffled

variable {ω : Type} {P : ω → Prop} {m m' : Machine Memory ω}

theorem of_same {m₁ m₁' : Machine Memory ω} (h : Shuffled P m m') (hs : Same m m₁)
    (hs' : Same m' m₁') : Shuffled P m₁ m₁' where
  cpu := by rw [hs.engine, hs'.engine, h.cpu]
  bus := by rw [hs.bus, hs'.bus, h.bus]
  stop := by rw [hs.engine, hs'.engine, h.stop]
  observers := by
    rw [hs.engine, hs'.engine]
    exact h.observers
  holds := by
    rw [hs.engine]
    exact h.holds

theorem unstopped (h : Shuffled P m m') :
    Shuffled P { m with stop := false } { m' with stop := false } :=
  ⟨h.cpu, h.bus, rfl, h.observers, h.holds⟩

theorem startAt (h : Shuffled P m m') (addr : Addr) :
    Shuffled P (m.startAt addr) (m'.startAt addr) := by
  have placed : Shuffled P (m.placedAt addr) (m'.placedAt addr) := by
    refine ⟨?_, h.bus, rfl, h.observers, h.holds⟩
    simp only [placedAt, modifyRegs, modifyCpu, h.cpu]
  exact placed.of_same (same_startAt addr m) (same_startAt addr m')

variable [Observer ω]

theorem step_of_independent (hi : Observer.Independent P) (ho : ∀ o ∈ m.observers, P o) {view : View}
    (hv : m.instruct.outcome = .ok view) :
    m.step.2.observers =
        (m.observers.map fun o => (Observer.answer view m.instruct.bus o).1) ∧
      m.step.2.stop =
        (m.stop || m.observers.any (Observer.asks view m.instruct.bus)) := by
  obtain ⟨ns, run⟩ := Engine.notify_on hi view m.instruct.bus (e := m.instructed) ho
  have told : (m.tell view).outcome = .ok () := congrArg Ending.outcome run
  have left := congrArg Ending.state run
  obtain ⟨-, engine, -⟩ := step_of_told hv told
  constructor
  · rw [engine]
    exact congrArg Engine.observers left
  · rw [engine]
    exact congrArg Engine.stop left

theorem step (hi : Observer.Independent P) (h : Shuffled P m m') :
    m'.step.1 = m.step.1 ∧ Shuffled P m.step.2 m'.step.2 := by
  have holds' : ∀ o ∈ m'.observers, P o := fun o member => h.holds o (h.observers.mem_iff.1 member)
  obtain ⟨calm, kept⟩ := step_keeps hi.keeps.keeps Memory.neverFaults h.holds
  obtain ⟨calm', -⟩ := step_keeps hi.keeps.keeps Memory.neverFaults holds'
  obtain ⟨outcome, cpu, bus⟩ := step_eq_cycle Memory.quiet calm
  obtain ⟨outcome', cpu', bus'⟩ := step_eq_cycle Memory.quiet calm'
  rw [h.cpu, h.bus] at outcome' cpu' bus'
  -- the observers are told of the same instruction, if of any
  have same : m'.instruct = m.instruct := by
    unfold instruct
    rw [h.cpu, h.bus]
  have left : m'.step.2.stop = m.step.2.stop ∧
      m'.step.2.observers.Perm m.step.2.observers := by
    cases hv : m.instruct.outcome with
    | error why =>
      rw [step_of_failed hv, step_of_failed (by rw [same, hv])]
      exact ⟨h.stop, h.observers⟩
    | ok view =>
      obtain ⟨observers, stop⟩ := step_of_independent hi h.holds hv
      obtain ⟨observers', stop'⟩ := step_of_independent hi holds' (by rw [same, hv])
      rw [observers, observers', stop, stop', same, h.stop]
      exact ⟨congrArg _ h.observers.any_eq, h.observers.map _⟩
  exact ⟨outcome'.trans outcome.symm, cpu'.trans cpu.symm, bus'.trans bus.symm, left.1, left.2, kept⟩

end Shuffled

theorem simulation_shuffled {ω : Type} [Observer ω] {P : ω → Prop} (hi : Observer.Independent P) :
    Simulation (Shuffled P) where
  cpu h := h.cpu
  stop h := h.stop
  log {m m'} h line := h.of_same (Same.log m line) (Same.log m' line)
  step h := h.step hi

end Machine

section Standard

theorem Report.safe_printCells {ω : Type} {P : ω → Control → Prop} {next : Probe ω} (h : next.Safe P)
    (self : ω) (count : Nat) (addr : Addr) : (printCells self next count addr).Safe P := by
  induction count generalizing addr with
  | zero => exact h
  | succ count ih => exact fun _ => ih (addr + 1)

theorem Report.safe_printRows {ω : Type} {P : ω → Control → Prop} {next : Probe ω} (h : next.Safe P)
    (self : ω) (count : Nat) (addr : Addr) : (printRows self next count addr).Safe P := by
  induction count generalizing addr with
  | zero => exact h
  | succ count ih =>
    have row : (Probe.print "\n" (printRows self next count (addr + 16))).Safe P := ih (addr + 16)
    exact safe_printCells row self 16 addr

theorem Report.safe_print {ω : Type} {P : ω → Control → Prop} {next : Probe ω} (h : next.Safe P) (self : ω)
    (v : View) (zeroPage : Bool) : (print self v zeroPage next).Safe P := by
  cases zeroPage with
  | false => exact h
  | true => exact safe_printRows h self 16 0

/-- Limits, throttles, and reporters that do not wait for input. -/
def Standard.Routine : Standard → Prop
  | .limit _ | .throttle _ => True
  | .reporter o => o.input = none
  | .recorder _ | .breakpoint _ => False

theorem Reporter.safe_wait {o : Reporter} (h : o.input = none) :
    o.wait.Safe fun o c => o.input = none ∧ c ≠ .withdraw := by
  obtain ⟨zeroPage, sink, input, delay⟩ := o
  obtain rfl : input = none := h
  by_cases pauses : delay = 0
  · simp only [wait, pauses, if_true]
    exact ⟨rfl, nofun⟩
  · simp only [wait, pauses, if_false]
    exact ⟨rfl, nofun⟩

theorem Reporter.safe_notify {o : Reporter} (h : o.input = none) (view : View) (stop : Bool) :
    (Observer.notify view stop o).Safe fun o c => o.input = none ∧ c ≠ .withdraw := by
  obtain ⟨zeroPage, ⟨room, atFlush⟩, input, delay⟩ := o
  obtain rfl : input = none := h
  rcases room with _ | _ | n
  · exact Report.safe_print (safe_wait rfl) _ view zeroPage
  · cases atFlush with
    | false => exact ⟨rfl, nofun⟩
    | true =>
      have failed : (Probe.log (.outputFailed .flush)
          (.done (⟨zeroPage, ⟨some 0, true⟩, none, delay⟩ : Reporter) .ask)).Safe
            fun o c => o.input = none ∧ c ≠ .withdraw := ⟨rfl, nofun⟩
      exact Report.safe_print failed _ view zeroPage
  · exact Report.safe_print (safe_wait rfl) _ view zeroPage

theorem Standard.independent_routine : Observer.Independent Routine where
  keeps o ho view stop := by
    cases o with
    | limit o =>
      apply (Probe.safe_map _ _).2
      by_cases reached : o.limit ≤ o.seen + 1
      · simp only [Observer.notify, reached, if_true]
        exact ⟨trivial, nofun⟩
      · simp only [Observer.notify, reached, if_false]
        exact ⟨trivial, nofun⟩
    | throttle o =>
      apply (Probe.safe_map _ _).2
      by_cases idle : o.delay = 0
      · simp only [Observer.notify, idle, if_true]
        exact ⟨trivial, nofun⟩
      · simp only [Observer.notify, idle, if_false]
        exact ⟨trivial, nofun⟩
    | reporter o => exact (Probe.safe_map _ _).2 (Reporter.safe_notify ho view stop)
    | recorder _ | breakpoint _ => exact ho.elim
  heedless {o} ho view stop := by
    cases o with
    | limit _ | throttle _ | reporter _ => rfl
    | recorder _ | breakpoint _ => exact ho.elim

end Standard

namespace Machine

/-- Observers that never fault disturb no step. Machines with any observers go through the same
states, with the same results, as long as no observer faults. And limits, throttles and reporters can
be told in any order. -/
theorem observers_do_not_interfere :
    (∀ {ω : Type} [Observer ω] {m : Machine Memory ω},
      (∀ o ∈ m.observers, Observer.NeverFaults o) → ∀ n, m.Undisturbed n) ∧
    (∀ {ω ω' : Type} [Observer ω] [Observer ω'] {m : Machine Memory ω} {m' : Machine Memory ω'},
      m'.cpu = m.cpu → m'.bus = m.bus → ∀ {n : Nat}, m.Undisturbed n → m'.Undisturbed n →
        (∀ k < n, (m'.after k).step.1 = (m.after k).step.1) ∧
        ∀ k ≤ n, (m'.after k).cpu = (m.after k).cpu ∧ (m'.after k).bus = (m.after k).bus) ∧
    ∀ {m : Machine Memory Standard} {observers : List Standard},
      observers.Perm m.observers → (∀ o ∈ m.observers, o.Routine) →
        let m' : Machine Memory Standard := { m with observers }
        (∀ count, (m'.runFor count).1 = (m.runFor count).1 ∧
          Shuffled Standard.Routine (m.runFor count).2 (m'.runFor count).2) ∧
        ∀ addr fuel,
          let run := (m.startAt addr).resume fuel
          let run' := (m'.startAt addr).resume fuel
          run'.verdict? = run.verdict? ∧ Shuffled Standard.Routine run.machine run'.machine := by
  refine ⟨undisturbed_of_neverFaults, ?_, ?_⟩
  · intro ω ω' _ _ m m' hc hb n h h'
    have agree := after_agree Memory.quiet hc hb h h'
    refine ⟨?_, agree⟩
    intro k hk
    obtain ⟨cpu, bus⟩ := agree k (Nat.le_of_lt hk)
    rw [(step_eq_cycle Memory.quiet (h k hk)).1, (step_eq_cycle Memory.quiet (h' k hk)).1, cpu, bus]
  · intro m observers hp ho m'
    have sim := simulation_shuffled Standard.independent_routine
    have shuffled : Shuffled Standard.Routine m m' := ⟨rfl, rfl, rfl, hp, ho⟩
    exact ⟨fun count => sim.runFrom shuffled.unstopped 0 count,
      fun addr fuel => sim.resume (shuffled.startAt addr) fuel⟩

/-- `INX` and `DEX`, with a report that cannot be delivered before the limit is reached. -/
def watched : Machine Memory Standard where
  cpu := { regs := { pc := 0x8000 } }
  bus := (Memory.zero.write 0x8000 0xE8).write 0x8001 0xCA
  observers := [.limit { limit := 2 }, .reporter { zeroPage := true, sink := { room := some 0 } }]

def unwatched : Machine Memory Empty := { cpu := watched.cpu, bus := watched.bus }

theorem watched_as_unwatched :
    ((∀ k < 5, (unwatched.after k).step.1 = (watched.after k).step.1) ∧
      ∀ k ≤ 5, (unwatched.after k).cpu = (watched.after k).cpu ∧
        (unwatched.after k).bus = (watched.after k).bus) ∧
    let reversed : Machine Memory Standard := { watched with observers := watched.observers.reverse }
    (∀ count, (reversed.runFor count).1 = (watched.runFor count).1) ∧
      ∀ fuel, ((reversed.startAt 0x8000).resume fuel).verdict? =
        ((watched.startAt 0x8000).resume fuel).verdict? := by
  obtain ⟨undisturbed, agree, reorder⟩ := observers_do_not_interfere
  have routine : ∀ o ∈ watched.observers, o.Routine := by
    intro o member
    simp only [watched, List.mem_cons, List.not_mem_nil, or_false] at member
    rcases member with rfl | rfl
    · exact trivial
    · exact rfl
  have calm : watched.Undisturbed 5 :=
    undisturbed (fun o member => ⟨_, Standard.independent_routine.keeps.keeps, routine o member⟩) 5
  have alone : unwatched.Undisturbed 5 := undisturbed (fun o _ => nomatch o) 5
  have cpu : unwatched.cpu = watched.cpu := rfl
  have bus : unwatched.bus = watched.bus := rfl
  obtain ⟨counted, started⟩ := reorder (List.reverse_perm watched.observers) routine
  exact ⟨agree cpu bus calm alone, fun count => (counted count).1,
    fun fuel => (started 0x8000 fuel).1⟩

end Machine

end Mos6502
