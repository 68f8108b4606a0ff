import Mos6502.Machine.Run
import Mos6502.Proofs.StepAccesses

namespace Mos6502

namespace Cpu

theorem Course.executed {c c' : Cpu} {es : List Event} {view : View}
    (h : Course c es (.done c' view)) : c'.executed = c.executed + 1 := by
  cases h with
  | @completed opcode i _ _ _ _ _ c₁ hp =>
    rw [executed_complete, hp.executed, executed_begun]

theorem Settling.executed {c c' : Cpu} {es : List Event} (h : Settling c es (.done c' ())) :
    c'.executed = c.executed := by
  cases h with
  | polled line _ hs => cases hs <;> rfl

end Cpu

namespace Machine

variable {β ω : Type} [Bus β] [Observer ω]

theorem step_executed {m m' : Machine β ω} (h : m.step = (.ok (), m')) :
    m'.cpu.executed = m.cpu.executed + 1 := by
  obtain ⟨view, hi, -, hs, he, -⟩ := step_eq_ok h
  have settled := ((Cpu.settle_ensures m.instruct.state).on_ok hs).1.executed
  rw [he]
  show (Cpu.settle.on m.instruct.state (m.tell view).bus).state.executed = _
  rw [settled]
  exact (m.cpu.instruction_ensures.on_ok hi).1.executed

theorem guardedStep_eq_ok {m m' : Machine β ω} :
    m.guardedStep = (.ok (), m') ↔ m.step = (.ok (), m') := by
  unfold guardedStep
  rcases m.step with ⟨(f | e) | _, m₁⟩ <;> simp

theorem guardedStep_of_error {m m' : Machine β ω} {why : Abort} (h : m.step = (.error why, m')) :
    ∃ e, m.guardedStep = (.error e, m') := by
  unfold guardedStep
  rw [h]
  cases why with
  | fault f => exact ⟨_, rfl⟩
  | error e => exact ⟨e, rfl⟩

/-- `k` instructions complete one after the other and lead from `m` to `m'`, and before none of them
a stop is asked for. -/
inductive Advances : Nat → Machine β ω → Machine β ω → Prop
  | refl (m : Machine β ω) : Advances 0 m m
  | step {k : Nat} {m m' m'' : Machine β ω} (h : m.stop = false) (hs : m.step = (.ok (), m'))
      (rest : Advances k m' m'') : Advances (k + 1) m m''

namespace Advances

variable {k : Nat} {m m' : Machine β ω}

theorem executed (h : Advances k m m') : m'.cpu.executed = m.cpu.executed + k := by
  induction h with
  | refl => rfl
  | step _ hs _ ih =>
    rw [ih, step_executed hs]
    omega

theorem neverFaults (h : Advances k m m') (hf : Bus.NeverFaults m.bus) :
    Bus.NeverFaults m'.bus := by
  induction h with
  | refl => exact hf
  | step _ hs _ ih =>
    obtain ⟨es, -, answered⟩ := step_traced hf
    rw [hs] at answered
    exact ih (hf.later answered)

theorem runFrom (h : Advances k m m') (done count : Nat) :
    m.runFrom done (k + count) = m'.runFrom (done + k) count := by
  induction h generalizing done with
  | refl => rw [Nat.zero_add, Nat.add_zero]
  | @step k m m₁ m' hstop hs _ ih =>
    have next : m.guardedStep = (.ok (), m₁) := guardedStep_eq_ok.2 hs
    have := ih (done + 1)
    rw [Nat.add_right_comm k 1, Machine.runFrom, hstop, next]
    rw [Nat.add_right_comm done, Nat.add_assoc] at this
    exact this

theorem resume (h : Advances k m m') (fuel : Nat) : m.resume (k + fuel) = m'.resume fuel := by
  induction h with
  | refl => rw [Nat.zero_add]
  | @step k m m₁ m' hstop hs _ ih =>
    have next : m.guardedStep = (.ok (), m₁) := guardedStep_eq_ok.2 hs
    rw [Nat.add_right_comm k 1, Machine.resume, hstop, next]
    exact ih

end Advances

/-- The machine after `n` single steps, whether they complete or not. -/
def after : (n : Nat) → Machine β ω → Machine β ω
  | 0, m => m
  | n + 1, m => m.step.2.after n

theorem after_succ (n : Nat) (m : Machine β ω) : m.after (n + 1) = (m.after n).step.2 := by
  induction n generalizing m with
  | zero => rfl
  | succ n ih => exact ih m.step.2

theorem advances_iff {k : Nat} {m m' : Machine β ω} : Advances k m m' ↔
    m' = m.after k ∧ ∀ j < k, (m.after j).step.1 = .ok () ∧ (m.after j).stop = false := by
  constructor
  · intro h
    induction h with
    | refl m => exact ⟨rfl, by simp⟩
    | @step k m m₁ m' hstop hs _ ih =>
      have next : m.step.2 = m₁ := by rw [hs]
      have first : m.step.1 = .ok () := by rw [hs]
      refine ⟨?_, ?_⟩
      · rw [after, next]
        exact ih.1
      · intro j hj
        cases j with
        | zero => exact ⟨first, hstop⟩
        | succ j =>
          rw [after, next]
          exact ih.2 j (Nat.lt_of_succ_lt_succ hj)
  · rintro ⟨rfl, h⟩
    induction k generalizing m with
    | zero => exact .refl m
    | succ k ih =>
      obtain ⟨first, hstop⟩ := h 0 (Nat.succ_pos k)
      refine .step hstop (Prod.ext first rfl) (ih ?_)
      intro j hj
      exact h (j + 1) (Nat.succ_lt_succ hj)

theorem runFrom_eq_error {done count : Nat} {m m' : Machine β ω} {e : ExecError}
    (h : m.runFrom done count = (.error e, m')) : ∃ k < count, ∃ m₁, Advances k m m₁ ∧
      m₁.stop = false ∧ m₁.guardedStep = (.error e, m') := by
  induction count generalizing done m with
  | zero => cases h
  | succ count ih =>
    rw [runFrom] at h
    split at h
    · cases h
    · rename_i running
      have running : m.stop = false := by simpa using running
      split at h
      -- this instruction completes, so the one that fails is among the rest
      · rename_i m₂ next
        obtain ⟨k, hk, m₁, adv, rest⟩ := ih h
        have hs : m.step = (.ok (), m₂) := guardedStep_eq_ok.1 next
        exact ⟨k + 1, Nat.succ_lt_succ hk, m₁, .step running hs adv, rest⟩
      · rename_i e' m₂ next
        cases h
        exact ⟨0, Nat.succ_pos count, m, .refl m, running, next⟩

theorem runFrom_eq_ok {done count r : Nat} {m m' : Machine β ω} :
    m.runFrom done count = (.ok r, m') ↔
      ∃ k ≤ count, r = done + k ∧ Advances k m m' ∧ (k = count ∨ m'.stop = true) := by
  constructor
  · intro h
    induction count generalizing done m with
    | zero =>
      cases h
      exact ⟨0, Nat.le_refl 0, rfl, .refl _, .inl rfl⟩
    | succ count ih =>
      rw [runFrom] at h
      split at h
      · rename_i stopped
        cases h
        exact ⟨0, Nat.zero_le _, rfl, .refl _, .inr stopped⟩
      · rename_i running
        have running : m.stop = false := by simpa using running
        split at h
        · rename_i m₁ next
          obtain ⟨k, hk, rfl, adv, last⟩ := ih h
          refine ⟨k + 1, Nat.succ_le_succ hk, by omega, ?_, last.imp_left (congrArg _)⟩
          exact .step running (guardedStep_eq_ok.1 next) adv
        · cases h
  · rintro ⟨k, hk, rfl, adv, last⟩
    obtain ⟨rest, rfl⟩ := Nat.exists_eq_add_of_le hk
    rw [adv.runFrom]
    cases rest with
    | zero => rfl
    | succ rest =>
      have stopped : m'.stop = true := by
        apply last.resolve_left
        omega
      rw [runFrom, if_pos stopped]

theorem runFor_eq_error {count : Nat} {m m' : Machine β ω} {e : ExecError}
    (h : m.runFor count = (.error e, m')) : ∃ k < count, ∃ m₁,
      Advances k { m with stop := false } m₁ ∧ m₁.stop = false ∧
        m₁.guardedStep = (.error e, m') :=
  runFrom_eq_error h

theorem Advances.runFor_of_error {m m₁ m' : Machine β ω} {k count : Nat} {e : ExecError}
    (adv : Advances k { m with stop := false } m₁) (hk : k < count) (running : m₁.stop = false)
    (failed : m₁.guardedStep = (.error e, m')) : m.runFor count = (.error e, m') := by
  obtain ⟨rest, rfl⟩ := Nat.exists_eq_add_of_lt hk
  rw [runFor, Nat.add_assoc, adv.runFrom, Machine.runFrom, running, failed]
  rfl

/-- How a run for at most `count` instructions ends that has come to `m` by `k` of them. -/
inductive Ran (count k : Nat) (m : Machine β ω) : Except ExecError Nat × Machine β ω → Prop
  | completed (hk : k ≤ count) (last : k = count ∨ m.stop = true) : Ran count k m (.ok k, m)
  | failed (hk : k < count) (hr : m.stop = false) {e : ExecError} {m' : Machine β ω}
      (hg : m.guardedStep = (.error e, m')) : Ran count k m (.error e, m')

theorem ran (count : Nat) (m : Machine β ω) : ∃ k m', Advances k { m with stop := false } m' ∧
    Ran count k m' (m.runFor count) := by
  rcases hr : m.runFor count with ⟨e | r, m'⟩
  · obtain ⟨k, hk, m₁, adv, running, failed⟩ := runFor_eq_error hr
    exact ⟨k, m₁, adv, .failed hk running failed⟩
  · obtain ⟨k, hk, rfl, adv, last⟩ := runFrom_eq_ok.1 hr
    rw [Nat.zero_add]
    exact ⟨k, m', adv, .completed hk last⟩

/-- How a run until a stop stands that was to go on for at most `fuel` instructions and has come to
`m` by `k` of them. -/
inductive Resumed (fuel k : Nat) (m : Machine β ω) : Emulation β ω → Prop
  | running (hk : k = fuel) (hr : m.stop = false) : Resumed fuel k m (.running m)
  | stopped (hk : k ≤ fuel) (hs : m.stop = true) :
      Resumed fuel k m (.ended (.ok ()) (m.log (.stopped m.cpu.regs.pc m.cpu.executed)))
  | failed (hk : k < fuel) (hr : m.stop = false) {e : ExecError} {m' : Machine β ω}
      (hg : m.guardedStep = (.error e, m')) :
      Resumed fuel k m (.ended (.error e) (m'.log (.failed e)))

theorem Resumed.succ {fuel k : Nat} {m : Machine β ω} {s : Emulation β ω}
    (h : Resumed fuel k m s) : Resumed (fuel + 1) (k + 1) m s := by
  cases h with
  | running hk hr => exact .running (congrArg _ hk) hr
  | stopped hk hs => exact .stopped (Nat.succ_le_succ hk) hs
  | failed hk hr hg => exact .failed (Nat.succ_lt_succ hk) hr hg

theorem resumed (fuel : Nat) (m : Machine β ω) :
    ∃ k m', Advances k m m' ∧ Resumed fuel k m' (m.resume fuel) := by
  induction fuel generalizing m with
  | zero =>
    refine ⟨0, m, .refl m, ?_⟩
    rw [resume]
    split
    · rename_i stopped
      exact .stopped (Nat.le_refl 0) stopped
    · rename_i running
      exact .running rfl (by simpa using running)
  | succ fuel ih =>
    rw [resume]
    split
    · rename_i stopped
      exact ⟨0, m, .refl m, .stopped (Nat.zero_le _) stopped⟩
    · rename_i running
      have running : m.stop = false := by simpa using running
      split
      · rename_i m₁ next
        obtain ⟨k, m', adv, stands⟩ := ih m₁
        exact ⟨k + 1, m', .step running (guardedStep_eq_ok.1 next) adv, stands.succ⟩
      · rename_i e m₁ next
        exact ⟨0, m, .refl m, .failed (Nat.succ_pos fuel) running next⟩

end Machine

end Mos6502
