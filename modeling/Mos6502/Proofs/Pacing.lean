import Mos6502.Proofs.Allowance

namespace Mos6502.Machine

variable {m m' : Machine Memory Standard}

theorem step_of_error (ho : ∀ o ∈ m.observers, o.Counts) {why : Abort}
    (hs : m.step = (.error why, m')) :
    ∃ e cpu, why = .error e ∧ m' = { m with cpu } ∧ cpu.executed = m.cpu.executed := by
  cases why with
  | fault f =>
    have calm := (step_keeps Standard.keeps_counts Memory.neverFaults ho).1 f
    rw [hs] at calm
    exact absurd rfl calm
  | error e =>
    obtain ⟨opcode, cpu, -, refuses, left⟩ := (refused_of_step Memory.quiet hs).unchanged
    refine ⟨e, cpu, rfl, left, ?_⟩
    cases refuses <;> rfl

theorem guardedStep_of_failing (ho : ∀ o ∈ m.observers, o.Counts) {e : ExecError}
    (hg : m.guardedStep = (.error e, m')) : m.step = (.error (.error e), m') ∧
      ∃ cpu, m' = { m with cpu } ∧ cpu.executed = m.cpu.executed := by
  have faultless : m.Faultless := ⟨Memory.neverFaults, fun o member => (ho o member).neverFaults⟩
  have failed := (faultless.guardedStep_eq_error hg).1
  obtain ⟨_, cpu, -, left⟩ := step_of_error ho failed
  exact ⟨failed, cpu, left⟩

/-- How a run ends that counts from nothing and is allowed `n` instructions. -/
inductive Lasts (n : Nat) (m : Machine Memory Standard) : Prop
  | completed {m' : Machine Memory Standard} (steps : ∀ j < n, (m.after j).step.1 = .ok ())
      (ends : EndsAfter n m (.ok ()) m') (left : Same (m.after n) m')
      (executed : m'.cpu.executed = n) : Lasts n m
  | failed {k : Nat} {e : ExecError} {m' : Machine Memory Standard} (hk : k < n)
      (steps : ∀ j < k, (m.after j).step.1 = .ok ())
      (fails : (m.after k).step.1 = .error (.error e)) (ends : EndsAfter (k + 1) m (.error e) m')
      (left : Same (m.after (k + 1)) m') (executed : m'.cpu.executed = k) : Lasts n m

section Run

variable (ho : ∀ o ∈ m.observers, o.Counts)

include ho

theorem counts_of_advances {k : Nat} (adv : Advances k m m') : ∀ o ∈ m'.observers, o.Counts := by
  induction adv with
  | refl => exact ho
  | step _ first _ ih => exact ih (counts_of_step ho first).1

theorem lasts_of_allowance (running : m.stop = false) (fresh : m.cpu.executed = 0) {n : Nat}
    (hn : allowance m.observers = some n) : Lasts n m := by
  obtain ⟨k, m₁, adv, stands⟩ := resumed n m
  obtain ⟨rfl, steps⟩ := advances_iff.1 adv
  obtain ⟨-, stops, -⟩ := adv.counts ho running
  have counted := adv.executed
  rw [fresh, Nat.zero_add] at counted
  generalize m.resume n = s at stands
  cases stands with
  | running hk hr =>
    -- a stop was asked for behind the last of them
    subst hk
    rw [hr] at stops
    cases stops.2 hn
  | stopped hk hs =>
    obtain rfl : k = n := Option.some.inj ((stops.1 hs).symm.trans hn)
    have left := Same.log (m.after k) (.stopped (m.after k).cpu.regs.pc (m.after k).cpu.executed)
    refine .completed (fun j hj => (steps j hj).1) (adv.endsAfter_stop hs) left ?_
    rw [left.engine]
    exact counted
  | @failed hk hr e m' hg =>
    obtain ⟨failed, cpu, left, executed⟩ := guardedStep_of_failing (counts_of_advances ho adv) hg
    have same := Same.log m' (.failed e)
    refine .failed hk (fun j hj => (steps j hj).1) ?_ (adv.endsAfter_error hr hg) ?_ ?_
    · rw [failed]
    · rw [after_succ, failed]
      exact same
    · rw [same.engine, left]
      exact executed.trans counted

theorem error_of_unlimited (running : m.stop = false) (unlimited : allowance m.observers = none)
    {fuel : Nat} {verdict : Except ExecError Unit} (h : m.resume fuel = .ended verdict m') :
    ∃ e, verdict = .error e := by
  obtain ⟨k, m₁, adv, stands⟩ := resumed fuel m
  obtain ⟨-, stops, -⟩ := adv.counts ho running
  rw [h] at stands
  cases stands with
  | stopped hk hs =>
    rw [unlimited] at stops
    cases stops.1 hs
  | failed _ _ _ => exact ⟨_, rfl⟩

theorem stands_behind (fuel : Nat) : ∃ k m₁, Advances k m m₁ ∧
    (m.resume fuel).machine.cpu.executed = m.cpu.executed + k ∧
    ∀ sel, (m.resume fuel).machine.output sel = m₁.output sel := by
  obtain ⟨k, m₁, adv, stands⟩ := resumed fuel m
  refine ⟨k, m₁, adv, ?_⟩
  rw [← adv.executed]
  generalize m.resume fuel = s at stands
  cases stands with
  | running => exact ⟨rfl, fun _ => rfl⟩
  | stopped =>
    have executed := congrArg (fun e : Engine Standard => e.cpu.executed)
      (Same.log m₁ (.stopped m₁.cpu.regs.pc m₁.cpu.executed)).engine
    exact ⟨executed, fun sel => output_log sel m₁ _⟩
  | @failed _ _ e m' hg =>
    obtain ⟨-, cpu, rfl, executed⟩ := guardedStep_of_failing (counts_of_advances ho adv) hg
    constructor
    · show (Machine.log _ _).cpu.executed = _
      rw [(Same.log _ _).engine]
      exact executed
    · exact fun sel => output_log sel _ _

theorem resume_reports {sel : Nat → Bool} {p : Nat} {r : Reporter}
    (hp : OnlyReporter sel p r m.observers) (unfailing : r.sink.room = none) (fuel : Nat) :
    let left := (m.resume fuel).machine
    ∃ texts : List String, left.cpu.executed = m.cpu.executed + texts.length ∧
      left.output sel = m.output sel ++ String.join texts ∧
      ∀ j text, texts[j]? = some text → (m.after j).Reported r.zeroPage text := by
  obtain ⟨k, m₁, adv, executed, output⟩ := stands_behind ho fuel
  have accepts : r.Accepts k := by
    intro room full
    rw [unfailing] at full
    cases full
  obtain ⟨texts, rfl, adds, reported⟩ := adv.reports hp accepts
  exact ⟨texts, executed, (output sel).trans adds, reported⟩

theorem resume_unheard (none : ∀ r, .reporter r ∉ m.observers) (fuel : Nat) (sel : Nat → Bool) :
    (m.resume fuel).machine.output sel = m.output sel := by
  obtain ⟨k, m₁, adv, -, output⟩ := stands_behind ho fuel
  rw [output]
  clear output
  induction adv with
  | refl => rfl
  | step _ first _ ih =>
    obtain ⟨counts, observers⟩ := counts_of_step ho first
    rw [ih counts, step_unheard first none]
    rw [observers]
    intro r member
    obtain ⟨o, member, becomes⟩ := List.mem_map.1 member
    cases o with
    | reporter o => exact none o member
    | limit _ | throttle _ | recorder _ | breakpoint _ => cases becomes

end Run

theorem Reported.unique {zeroPage : Bool} {text text' : String} (h : m.Reported zeroPage text)
    (h' : m'.Reported zeroPage text') (cpu : m'.cpu = m.cpu) (bus : m'.bus = m.bus) :
    text' = text := by
  have same : m'.instruct = m.instruct := by
    unfold instruct
    rw [cpu, bus]
  obtain ⟨view, page, shows, -, dump, rfl⟩ := h
  obtain ⟨view', page', shows', -, dump', rfl⟩ := h'
  rw [same] at shows' dump'
  obtain rfl : view' = view := Except.ok.inj (shows'.symm.trans shows)
  cases zeroPage with
  | false => rfl
  | true =>
    rw [dump rfl Memory.read Memory.holds, dump' rfl Memory.read Memory.holds]

/-- The same machine under observers that allow as many instructions. -/
structure Paced (m m' : Machine Memory Standard) : Prop where
  cpu : m'.cpu = m.cpu
  bus : m'.bus = m.bus
  stop : m'.stop = m.stop
  allowance : allowance m'.observers = allowance m.observers
  counts : ∀ o ∈ m.observers, o.Counts
  counts' : ∀ o ∈ m'.observers, o.Counts

namespace Paced

theorem of_same {m₁ m₁' : Machine Memory Standard} (h : Paced m m') (hs : Same m m₁)
    (hs' : Same m' m₁') : Paced m₁ m₁' where
  cpu := by rw [hs.engine, hs'.engine, h.cpu]
  bus := by rw [hs.bus, hs'.bus, h.bus]
  stop := by rw [hs.engine, hs'.engine, h.stop]
  allowance := by rw [hs.engine, hs'.engine, h.allowance]
  counts := by
    rw [hs.engine]
    exact h.counts
  counts' := by
    rw [hs'.engine]
    exact h.counts'

theorem step (h : Paced m m') : m'.step.1 = m.step.1 ∧ Paced m.step.2 m'.step.2 := by
  obtain ⟨calm, -⟩ := step_keeps Standard.keeps_counts Memory.neverFaults h.counts
  obtain ⟨calm', -⟩ := step_keeps Standard.keeps_counts Memory.neverFaults h.counts'
  obtain ⟨outcome, cpu, bus⟩ := step_eq_cycle Memory.quiet calm
  obtain ⟨outcome', cpu', bus'⟩ := step_eq_cycle Memory.quiet calm'
  -- plain memory is left to the processor, so both steps end alike; the observers decide the rest
  rw [h.cpu, h.bus] at outcome' cpu' bus'
  rw [← outcome] at outcome'
  rw [← cpu] at cpu'
  rw [← bus] at bus'
  refine ⟨outcome', ?_⟩
  rcases hs : m.step with ⟨why | _, m₁⟩
  · rcases hs' : m'.step with ⟨why' | _, m₁'⟩
    · obtain ⟨_, _, -, rfl, -⟩ := step_of_error h.counts hs
      obtain ⟨_, _, -, rfl, -⟩ := step_of_error h.counts' hs'
      rw [hs, hs'] at cpu' bus'
      exact ⟨cpu', bus', h.stop, h.allowance, h.counts, h.counts'⟩
    · rw [hs, hs'] at outcome'
      cases outcome'
  · rcases hs' : m'.step with ⟨why' | _, m₁'⟩
    · rw [hs, hs'] at outcome'
      cases outcome'
    · obtain ⟨observers, stop⟩ := step_counts h.counts hs
      obtain ⟨observers', stop'⟩ := step_counts h.counts' hs'
      rw [hs, hs'] at cpu' bus'
      have asked : m'.observers.any Standard.asks = m.observers.any Standard.asks := by
        rw [Bool.eq_iff_iff, any_asks_iff, any_asks_iff, h.allowance]
      refine ⟨cpu', bus', ?_, ?_, (counts_of_step h.counts hs).1, (counts_of_step h.counts' hs').1⟩
      · rw [stop, stop', h.stop, asked]
      · rw [observers, observers', allowance_next_congr h.allowance]

end Paced

theorem simulation_paced : Simulation Paced where
  cpu h := h.cpu
  stop h := h.stop
  log {m m'} h line := h.of_same (Same.log m line) (Same.log m' line)
  step h := h.step

theorem Paced.after (h : Paced m m') (n : Nat) : Paced (m.after n) (m'.after n) := by
  induction n with
  | zero => exact h
  | succ n ih =>
    rw [after_succ, after_succ]
    exact ih.step.2

end Mos6502.Machine
