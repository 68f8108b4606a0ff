import Mos6502.Observer.Limit
import Mos6502.Proofs.Faultless
import Mos6502.Proofs.Telling

namespace Mos6502

theorem toList_foldl_push {α : Type} (p : α → Bool) (as : List α) (kept : Array α) :
    (as.foldl (fun kept a => if p a then kept.push a else kept) kept).toList =
      kept.toList ++ as.filter p := by
  induction as generalizing kept with
  | nil => exact (List.append_nil _).symm
  | cons a as ih =>
    rw [List.foldl_cons, ih]
    cases h : p a <;> simp [h]

namespace Machine

variable {β ω : Type} [Bus β] [Observer ω]

theorem journal_of_step {m m' : Machine β ω} {view : View} (h : m.step = (.ok (), m'))
    (hi : m.instruct.outcome = .ok view) (ht : (m.tell view).outcome = .ok ()) :
    m'.journal.toList = m.journal.toList ++ (m.instruct.notes ++ ((m.tell view).notes ++
      (Cpu.settle.on m.instruct.state (m.tell view).bus).notes)).filter (Note.kept m.logging) := by
  have same : (m.tell view).state.cpu = m.instruct.state :=
    ((Engine.notify_ensures view m.instructed).on_ok ht).1.2
  have run : (Engine.step.on m.toEngine m.bus).notes = m.instruct.notes ++ ((m.tell view).notes ++
      (Cpu.settle.on m.instruct.state (m.tell view).bus).notes) := by
    rw [step_on_of_ok hi, Ending.andThen_of_ok ht, same]
    rfl
  have left : m.step.2 = m' := by rw [h]
  rw [← left, step_eq, ← run]
  exact toList_foldl_push (Note.kept m.logging) _ m.journal

/-- An instruction completes in a step of `m` and shows `view`; `ts` are all notifications that it
causes. -/
structure Notifies (m : Machine β ω) (view : View) (ts : List (Telling β ω)) (m' : Machine β ω) :
    Prop where
  completes : m.step = (.ok (), m')
  /-- The view is that of the instruction that was fetched, as this has left the processor. -/
  instruction : ∃ opcode, (Bus.read m.bus m.cpu.regs.pc).1 = .ok opcode ∧
    Instruction.decode opcode = some view.instruction
  asLeft : view = ⟨m.instruct.state.regs, view.instruction, m.cpu.executed + 1⟩
  current : m.instruct.state.current = some view.instruction
  /-- Every observer is told, once and in order. -/
  observers : ts.map Telling.observer = m.observers
  shown : ∀ t ∈ ts, t.view = view
  turn : ∀ before t after, ts = before ++ t :: after → Telling.Turn m.instruct.bus before t
  answered : ∀ t ∈ ts, t.Answered
  /-- Memory is as the instruction has left it. -/
  memory : ∀ t ∈ ts, (∃ as, Serves m.instruct.bus as t.bus ∧ WritesNothing as) ∧
    (Bus.Quiet β → t.bus = m.instruct.bus) ∧
    ∀ cell, Bus.Holds cell → cell t.bus = cell m.instruct.bus
  left : m'.observers = ts.map Telling.left
  /-- A request to stop is seen by all who come behind, until one of them takes it back. -/
  seen : ∀ before t between u after, ts = before ++ t :: (between ++ u :: after) →
    t.control = .ask → (∀ w ∈ between, w.control ≠ .withdraw) → u.stopSeen = true
  /-- The machine stops if the last of them leaves the request. -/
  stop : m'.stop = (m.stop || Telling.stopAfter false ts)
  /-- What is latched is serviced behind all of them, whether a stop was asked for or not. -/
  serviced : ∃ line b, Bus.poll (Telling.busAfter m.instruct.bus ts) = (.ok line, b) ∧
    Cpu.Takes (m.cpu.taken view.instruction line) m.instruct.state b m'.cpu m'.bus
  journal : m'.journal.toList = m.journal.toList ++
    (m.instruct.notes ++ ((ts.flatMap fun t => t.ending.notes) ++
      (Cpu.settle.on m.instruct.state (Telling.busAfter m.instruct.bus ts)).notes)).filter
        (Note.kept m.logging)

theorem stopAfter_of_asks {ts before after : List (Telling β ω)} {t : Telling β ω}
    (split : ts = before ++ t :: after) (asks : t.control = .ask)
    (kept : ∀ w ∈ after, w.control ≠ .withdraw) (stop : Bool) :
    Telling.stopAfter stop ts = true := by
  rw [split, Telling.stopAfter, List.map_append, List.map_cons, asks]
  refine Control.applyAll_of_ask (fun member => ?_) _ stop
  obtain ⟨w, hw, withdraws⟩ := List.mem_map.1 member
  exact kept w hw withdraws

/-- On any bus and with any observers, a step that completes has told all of them. -/
theorem notifies_of_step {m m' : Machine β ω} (h : m.step = (.ok (), m')) :
    ∃ view ts, m.instruct.outcome = .ok view ∧ m.Notifies view ts m' := by
  obtain ⟨view, hi, ht, settled, engine, bus⟩ := step_eq_ok h
  have course := (m.cpu.instruction_ensures.on_ok hi).1
  obtain ⟨opcode, fetched, decodes, shows⟩ := fetched_of_instruct hi
  obtain ⟨answered, told⟩ := tell_eq_round ht
  generalize hts : Telling.round view 0 false m.instruct.bus m.observers = ts at answered told
  refine ⟨view, ts, hi, ?_⟩
  constructor
  case completes => exact h
  case instruction => exact ⟨opcode, fetched, decodes⟩
  case asLeft =>
    rw [← course.executed]
    exact shows
  case current => exact course.current
  case observers =>
    rw [← hts]
    exact Telling.map_observer_round
  case shown =>
    rw [← hts]
    exact fun t => Telling.view_of_mem_round
  case turn =>
    intro before t after split
    obtain ⟨position, stopSeen, bus⟩ := Telling.turn_of_round (hts.trans split)
    exact ⟨by rw [position, Nat.zero_add], stopSeen, bus⟩
  case answered => exact answered
  case memory =>
    intro t member
    rw [← hts] at answered member
    obtain ⟨as, served, quiet⟩ := Telling.served_of_round answered member
    refine ⟨⟨as, served, quiet⟩, fun hq => hq.served served quiet, fun cell hc => ?_⟩
    rw [hc.served served, quiet.stored]
  case left => rw [engine, told]
  case seen =>
    intro before t between u after split asks kept
    have here : ts = (before ++ t :: between) ++ u :: after := by
      rw [split, List.append_assoc, List.cons_append]
    rw [(Telling.turn_of_round (hts.trans here)).2.1]
    exact stopAfter_of_asks rfl asks kept false
  case stop => rw [engine, told]
  case serviced =>
    rw [told] at settled engine bus
    rw [engine, bus]
    exact takes_of_settled hi settled
  case journal =>
    have record := journal_of_step h hi ht
    rwa [told] at record

theorem Notifies.observed {m m' : Machine β ω} {view : View} {ts : List (Telling β ω)}
    (h : m.Notifies view ts m') {i : Nat} {t : Telling β ω} (ht : ts[i]? = some t) :
    t.position = i ∧ m.observers[i]? = some t.observer := by
  constructor
  · obtain ⟨hi, rfl⟩ := List.getElem?_eq_some_iff.1 ht
    have split : ts = ts.take i ++ ts[i] :: ts.drop (i + 1) := by
      rw [List.getElem_cons_drop, List.take_append_drop]
    rw [(h.turn _ _ _ split).position, List.length_take_of_le (Nat.le_of_lt hi)]
  · rw [← h.observers, List.getElem?_map, ht]
    rfl

/-- The instructions that complete in a run, with the notifications of each. Before none of them a stop
is asked for. -/
inductive Chronicle : Machine β ω → List (View × List (Telling β ω)) → Machine β ω → Prop
  | nil (m : Machine β ω) : Chronicle m [] m
  | cons {m m₁ m' : Machine β ω} {view : View} {ts : List (Telling β ω)}
      {rounds : List (View × List (Telling β ω))} (running : m.stop = false)
      (first : m.Notifies view ts m₁) (rest : Chronicle m₁ rounds m') :
      Chronicle m ((view, ts) :: rounds) m'

theorem Advances.chronicle {k : Nat} {m m' : Machine β ω} (adv : Advances k m m') :
    ∃ rounds, rounds.length = k ∧ Chronicle m rounds m' := by
  induction adv with
  | refl m => exact ⟨[], rfl, .nil m⟩
  | @step k m m₁ m' running completes _ ih =>
    obtain ⟨view, ts, -, notifies⟩ := notifies_of_step completes
    obtain ⟨rounds, length, rest⟩ := ih
    exact ⟨(view, ts) :: rounds, congrArg (· + 1) length, .cons running notifies rest⟩

namespace Chronicle

variable {m m' : Machine β ω} {rounds before after : List (View × List (Telling β ω))}
  {view : View} {ts : List (Telling β ω)}

theorem executed (h : Chronicle m rounds m') (hr : rounds = before ++ (view, ts) :: after) :
    view.executed = m.cpu.executed + before.length + 1 := by
  induction h generalizing before with
  | nil => simp at hr
  | cons _ first _ ih =>
    cases before with
    | nil =>
      cases hr
      rw [first.asLeft]
      rfl
    | cons round before =>
      obtain ⟨rfl, later⟩ := List.cons.inj hr
      rw [ih later, step_executed first.completes, List.length_cons]
      omega

/-- No instruction is fetched behind one at which the last observer leaves a request to stop. -/
theorem last (h : Chronicle m rounds m') (hr : rounds = before ++ (view, ts) :: after)
    (asked : Telling.stopAfter false ts = true) : after = [] ∧ m'.stop = true := by
  induction h generalizing before with
  | nil => simp at hr
  | cons _ first rest ih =>
    cases before with
    | nil =>
      cases hr
      have stopped := first.stop
      rw [asked, Bool.or_true] at stopped
      cases rest with
      | nil => exact ⟨rfl, stopped⟩
      | cons running _ _ =>
        rw [stopped] at running
        cases running
    | cons round before =>
      obtain ⟨-, later⟩ := List.cons.inj hr
      exact ih later

theorem stands (h : Chronicle m rounds m') (ho : ∀ o ∈ m.observers, Observer.OnlyAsks o) :
    ∀ round ∈ rounds, ∀ t ∈ round.2, t.control ≠ .withdraw := by
  induction h with
  | nil => exact fun _ member => nomatch member
  | @cons m m₁ m' view ts rounds _ first _ ih =>
    have told (t : Telling β ω) (member : t ∈ ts) :
        Observer.OnlyAsks t.left ∧ t.control ≠ .withdraw := by
      refine Telling.safe_of_answered (first.answered t member)
        (Observer.keepsRequests_onlyAsks _ (ho _ ?_) _ _)
      rw [← first.observers]
      exact List.mem_map_of_mem member
    rw [List.forall_mem_cons]
    refine ⟨fun t member => (told t member).2, ih ?_⟩
    rw [first.left, List.forall_mem_map]
    exact fun t member => (told t member).1

end Chronicle

/-- A step of `m` fails with `e`, and nobody is told: the step goes the same way whoever observes. -/
structure Untold (m : Machine β ω) (e : ExecError) (m' : Machine β ω) : Prop where
  failed : m.step = (.error (.error e), m')
  observers : m'.observers = m.observers
  journal : m'.journal = m.journal
  unobserved {ω' : Type} [Observer ω'] (others : List ω') :
    (m.observedBy others).step = (.error (.error e), m'.observedBy others)

theorem untold_of_step {m m' : Machine β ω} {e : ExecError}
    (h : m.step = (.error (.error e), m')) : m.Untold e m' := by
  have hi : m.instruct.outcome = .error (.error e) := instruct_of_step_eq_error (by rw [h])
  have left := step_of_failed hi
  rw [h] at left
  obtain rfl : m' = _ := (Prod.mk.inj left).2
  exact ⟨h, rfl, rfl, fun others => step_of_failed (m := m.observedBy others) hi⟩

/-- A run from `m` has come to `m'` by the instructions that `rounds` tells of. -/
structure Reports (m : Machine β ω) (rounds : List (View × List (Telling β ω))) (m' : Machine β ω) :
    Prop where
  chronicle : Chronicle m rounds m'
  counted : ∀ before view ts after, rounds = before ++ (view, ts) :: after →
    view.executed = m.cpu.executed + before.length + 1
  /-- A request to stop that none of those behind takes back ends the run. -/
  last : ∀ before view ts after, rounds = before ++ (view, ts) :: after →
    ∀ first t behind, ts = first ++ t :: behind → t.control = .ask →
      (∀ w ∈ behind, w.control ≠ .withdraw) → after = [] ∧ m'.stop = true
  stands : (∀ o ∈ m.observers, Observer.OnlyAsks o) →
    ∀ round ∈ rounds, ∀ t ∈ round.2, t.control ≠ .withdraw
  untold : ∀ e m'', m'.guardedStep = (.error e, m'') → m'.Untold e m''

theorem Faultless.reports {k : Nat} {m m' : Machine β ω} (hf : m.Faultless)
    (adv : Advances k m m') : ∃ rounds, rounds.length = k ∧ Reports m rounds m' := by
  obtain ⟨rounds, length, chronicle⟩ := adv.chronicle
  refine ⟨rounds, length, chronicle, fun _ _ _ _ => chronicle.executed, ?_, chronicle.stands,
    fun e m'' failed => untold_of_step ?_⟩
  · intro before view ts after split first t behind asked asks kept
    exact chronicle.last split (stopAfter_of_asks asked asks kept false)
  exact ((hf.advances adv).guardedStep_eq_error failed).1

/-- Runs of any kind and length, on a machine in which nothing faults. -/
theorem observers_are_notified {m : Machine β ω} (hf : m.Faultless) :
    (∀ count, ∃ rounds m', Reports { m with stop := false } rounds m' ∧
      Ran count rounds.length m' (m.runFor count)) ∧
    (∀ addr, (m.startAt addr).observers = m.observers ∧
      ∀ fuel, ∃ rounds m', Reports (m.startAt addr) rounds m' ∧
        Resumed fuel rounds.length m' ((m.startAt addr).resume fuel)) ∧
    ∃ m₀, m.start = (.ok (), m₀) ∧ m₀.observers = m.observers ∧
      ∀ fuel, ∃ rounds m', Reports m₀ rounds m' ∧
        Resumed fuel rounds.length m' (m₀.resume fuel) := by
  have resumes {m : Machine β ω} (hf : m.Faultless) (fuel : Nat) : ∃ rounds m',
      Reports m rounds m' ∧ Resumed fuel rounds.length m' (m.resume fuel) := by
    obtain ⟨k, m', adv, stands⟩ := resumed fuel m
    obtain ⟨rounds, rfl, reports⟩ := hf.reports adv
    exact ⟨rounds, m', reports, stands⟩
  refine ⟨fun count => ?_, fun addr => ⟨observers_begin _, resumes (hf.startAt addr)⟩, ?_⟩
  · obtain ⟨k, m', adv, ends⟩ := ran count m
    obtain ⟨rounds, rfl, reports⟩ := hf.unstopped.reports adv
    exact ⟨rounds, m', reports, ends⟩
  · obtain ⟨m₁, -, started, faultless, observers⟩ := hf.start
    exact ⟨m₁.begin, started, (observers_begin m₁).trans observers, resumes faultless.begin⟩

/-- Two `NOP`s, the first with an NMI latched; the second of three limits is reached there. -/
def thriceLimited : Machine Memory Limit where
  cpu := { regs := { pc := 0x8000 }, pending := some .nmi }
  bus := (Memory.zero.store 0x8000 [0xEA, 0xEA]).store 0xFFFA [0x00, 0x90]
  observers := [{ limit := 3 }, { limit := 1 }, { limit := 2 }]

/-- All three limits are told, the last of them with the request of the second; the NMI is serviced, and
the second `NOP` is not fetched. -/
theorem all_limits_are_told :
    ∃ view t₁ t₂ t₃ m', Reports { thriceLimited with stop := false } [(view, [t₁, t₂, t₃])] m' ∧
      [t₁, t₂, t₃].map Telling.observer = [⟨3, 0⟩, ⟨1, 0⟩, ⟨2, 0⟩] ∧ t₂.control = .ask ∧
      t₃.control ≠ .withdraw ∧ t₃.stopSeen = true ∧
      thriceLimited.runFor 5 = (.ok 1, m') ∧ m'.stop = true ∧ m'.cpu.regs.pc = 0x9000 := by
  have safe (o : Limit) : Observer.OnlyAsks o := by
    refine ⟨fun _ => True, fun o _ view stop => ?_, trivial⟩
    dsimp only [Observer.notify]
    split
    · exact ⟨trivial, nofun⟩
    · exact ⟨trivial, nofun⟩
  have faultless : thriceLimited.Faultless := ⟨Memory.neverFaults, fun o _ => (safe o).neverFaults⟩
  obtain ⟨counted, -⟩ := observers_are_notified faultless
  obtain ⟨rounds, m', reports, ends⟩ := counted 5
  have ended : thriceLimited.runFor 5 = (.ok 1, (thriceLimited.runFor 5).2) := rfl
  rw [ended] at ends
  generalize hk : rounds.length = k at ends
  cases ends with
  | completed _ _ =>
    obtain ⟨⟨view, ts⟩, rfl⟩ := List.length_eq_one_iff.1 hk
    have kept := reports.stands fun o _ => safe o
    cases reports.chronicle with
    | cons _ first rest =>
      cases rest
      obtain ⟨t₁, ts, rfl, -, later⟩ := List.map_eq_cons_iff.1 first.observers
      obtain ⟨t₂, ts, rfl, second, later⟩ := List.map_eq_cons_iff.1 later
      obtain ⟨t₃, ts, rfl, -, later⟩ := List.map_eq_cons_iff.1 later
      obtain rfl := List.map_eq_nil_iff.1 later
      have asks : t₂.control = .ask := by
        rcases t₂ with ⟨position, o, view, stop, b⟩
        obtain rfl : o = ⟨1, 0⟩ := second
        rfl
      have stands : t₃.control ≠ .withdraw := kept (view, [t₁, t₂, t₃]) (by simp) t₃ (by simp)
      have seen : t₃.stopSeen = true := first.seen [t₁] t₂ [] t₃ [] rfl asks (by simp)
      exact ⟨view, t₁, t₂, t₃, _, reports, first.observers, asks, stands, seen, ended, rfl, rfl⟩

/-- Two `NOP`s, the first with an `irq` latched and interrupts disabled; a limit is reached there. -/
def maskedAtStop : Machine Memory Limit where
  cpu := { regs := { pc := 0x8000, flags := { interruptDisable := true } }, pending := some .irq }
  bus := (Memory.zero.store 0x8000 [0xEA, 0xEA]).store 0xFFFE [0x00, 0x90]
  observers := [{ limit := 1 }]

/-- An observer that treats the request to stop in the same way each time. -/
structure Vote where
  control : Control

instance : Observer Vote where
  notify _ _ o := .done o o.control

/-- Two `NOP`s. At each of them a stop is asked for, and the request is taken back. -/
def outvoted : Machine Memory Vote where
  cpu := { regs := { pc := 0x8000 } }
  bus := Memory.zero.store 0x8000 [0xEA, 0xEA]
  observers := [⟨.leave⟩, ⟨.ask⟩, ⟨.withdraw⟩, ⟨.leave⟩]

/-- The `irq` that is latched where a stop is asked for is dropped and not serviced. Where the request of
one observer is taken back by another, the run goes on. -/
theorem stopped_irq_is_dropped :
    (∃ m', maskedAtStop.runFor 5 = (.ok 1, m') ∧ m'.stop = true ∧ m'.cpu.pending = none ∧
      m'.cpu.regs = maskedAtStop.cpu.regs.setPc 0x8001 ∧ m'.bus = maskedAtStop.bus) ∧
    (outvoted.runFor 2).1 = .ok 2 :=
  ⟨⟨_, rfl, rfl, rfl, rfl, rfl⟩, rfl⟩

end Machine

end Mos6502
