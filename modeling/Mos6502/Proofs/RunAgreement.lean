import Mos6502.Observer.Limit
import Mos6502.Proofs.Simulation

namespace Mos6502.Machine

theorem placedAt_eq {β ω : Type} {m : Machine β ω} (hh : m.cpu.holdPc = false) (addr : Addr) :
    m.placedAt addr = { m.modifyRegs (·.setPc addr) with stop := false } := by
  have held : ({ (m.modifyRegs (·.setPc addr)).cpu with holdPc := false } : Cpu) =
      (m.modifyRegs (·.setPc addr)).cpu := by
    rw [← hh]
    rfl
  rw [placedAt, held]

variable {β ω : Type} [Bus β] [Observer ω]

/-- A run until a stop ends with `verdict`, in `m'`, once `k` instructions have been attempted. -/
structure EndsAfter (k : Nat) (m : Machine β ω) (verdict : Except ExecError Unit)
    (m' : Machine β ω) : Prop where
  ended : m.resume k = .ended verdict m'
  running : ∀ j < k, (m.resume j).verdict? = none

theorem endsAfter_of_verdicts {k : Nat} {m : Machine β ω} {verdict : Except ExecError Unit}
    (h : (List.range (k + 1)).map (fun j => (m.resume j).verdict?) =
      List.replicate k none ++ [some verdict]) : EndsAfter k m verdict (m.resume k).machine := by
  have stands (j : Nat) (hj : j < k + 1) :
      some (m.resume j).verdict? = (List.replicate k none ++ [some verdict])[j]? := by
    rw [← h, List.getElem?_map, List.getElem?_range hj]
    rfl
  constructor
  · have last := stands k (Nat.lt_succ_self k)
    rw [List.getElem?_append_right (by simp), List.length_replicate, Nat.sub_self] at last
    generalize m.resume k = run at last
    cases run with
    | running _ => cases last
    | ended _ _ =>
      cases last
      rfl
  · intro j hj
    have before := stands j (Nat.lt_succ_of_lt hj)
    rw [List.getElem?_append_left (by simpa using hj), List.getElem?_replicate, if_pos hj] at before
    exact Option.some.inj before

theorem EndsAfter.unique {k k' : Nat} {m m₁ m₁' : Machine β ω}
    {verdict verdict' : Except ExecError Unit} (h : EndsAfter k m verdict m₁)
    (h' : EndsAfter k' m verdict' m₁') : k' = k ∧ verdict' = verdict ∧ m₁' = m₁ := by
  rcases Nat.lt_trichotomy k' k with before | rfl | behind
  · have running := h.running k' before
    rw [h'.ended] at running
    cases running
  · obtain ⟨rfl, rfl⟩ := Emulation.ended.inj (h'.ended.symm.trans h.ended)
    exact ⟨rfl, rfl, rfl⟩
  · have running := h'.running k behind
    rw [h.ended] at running
    cases running

theorem Advances.not_ended {j k : Nat} {m m' : Machine β ω} (adv : Advances k m m') (hj : j < k) :
    (m.resume j).verdict? = none := by
  obtain ⟨-, steps⟩ := advances_iff.1 adv
  have reached : Advances j m (m.after j) :=
    advances_iff.2 ⟨rfl, fun i hi => steps i (Nat.lt_trans hi hj)⟩
  rw [← Nat.add_zero j, reached.resume 0, Machine.resume, (steps j hj).2]
  rfl

theorem Advances.endsAfter_stop {k : Nat} {m m' : Machine β ω} (adv : Advances k m m')
    (stopped : m'.stop = true) :
    EndsAfter k m (.ok ()) (m'.log (.stopped m'.cpu.regs.pc m'.cpu.executed)) where
  ended := by
    rw [← Nat.add_zero k, adv.resume 0, Machine.resume, if_pos stopped]
  running := fun _ hj => adv.not_ended hj

theorem Advances.endsAfter_error {k : Nat} {m m₁ m' : Machine β ω} {e : ExecError}
    (adv : Advances k m m₁) (running : m₁.stop = false) (failed : m₁.guardedStep = (.error e, m')) :
    EndsAfter (k + 1) m (.error e) (m'.log (.failed e)) where
  ended := by
    rw [adv.resume 1, Machine.resume, running, failed]
    rfl
  running := by
    intro j hj
    rcases Nat.lt_succ_iff_lt_or_eq.1 hj with before | rfl
    · exact adv.not_ended before
    · rw [← Nat.add_zero j, adv.resume 0, Machine.resume, running]
      rfl

theorem EndsAfter.runFrom {k : Nat} {m m' : Machine β ω} {verdict : Except ExecError Unit}
    (h : EndsAfter k m verdict m') (done : Nat) {count : Nat} (hk : k ≤ count) :
    (m.runFrom done count).1 = verdict.map (fun _ => done + k) ∧
      Same m' (m.runFrom done count).2 := by
  induction k generalizing m done count with
  | zero =>
    have ended := h.ended
    rw [resume] at ended
    split at ended
    · rename_i stopped
      cases ended
      cases count with
      | zero => exact ⟨rfl, (Same.log m _).symm⟩
      | succ count =>
        rw [Machine.runFrom, if_pos stopped]
        exact ⟨rfl, (Same.log m _).symm⟩
    · cases ended
  | succ k ih =>
    obtain ⟨count, rfl⟩ := Nat.exists_eq_add_of_le' hk
    -- it is under way before its first instruction, so no stop is asked for yet
    have running : m.stop = false := by
      have first := h.running 0 (Nat.succ_pos k)
      rw [resume] at first
      split at first
      · cases first
      · rename_i running
        simpa using running
    have ended := h.ended
    rw [resume, running] at ended
    rw [← Nat.add_assoc, Machine.runFrom, running]
    rcases next : m.guardedStep with ⟨e | _, m₁⟩
    · rw [next] at ended
      cases ended
      exact ⟨rfl, (Same.log m₁ _).symm⟩
    · rw [next] at ended
      have rest : EndsAfter k m₁ verdict m' := by
        refine ⟨ended, ?_⟩
        intro j hj
        have later := h.running (j + 1) (Nat.succ_lt_succ hj)
        rw [resume, running, next] at later
        exact later
      have agreed := ih rest (done + 1) (Nat.le_add_left k count)
      rw [Nat.add_right_comm, Nat.add_assoc] at agreed
      exact agreed

theorem runFrom_add (first done count : Nat) (m : Machine β ω) :
    m.runFrom (first + done) count =
      ((m.runFrom done count).1.map (first + ·), (m.runFrom done count).2) := by
  induction count generalizing done m with
  | zero => rfl
  | succ count ih =>
    rw [runFrom, runFrom]
    split
    · rfl
    · rcases m.guardedStep with ⟨e | _, m₁⟩
      · rfl
      · exact ih (done + 1) m₁

theorem runFor_eq_ok {count k : Nat} {m m' : Machine β ω} : m.runFor count = (.ok k, m') ↔
    k ≤ count ∧ Advances k { m with stop := false } m' ∧ (k = count ∨ m'.stop = true) := by
  rw [runFor, runFrom_eq_ok]
  constructor
  · rintro ⟨k, hk, rfl, adv, last⟩
    rw [Nat.zero_add]
    exact ⟨hk, adv, last⟩
  · rintro ⟨hk, adv, last⟩
    exact ⟨k, hk, (Nat.zero_add k).symm, adv, last⟩

/-- Runs agree with each other and with single steps. A run until a stop from `addr` is one for any
number of instructions that is large enough. A run for `count` instructions completes `k` just if `k`
single steps complete, none but the last of them asks for a stop, and it is the last one allowed or
asks for a stop; what was asked for before does not matter. And a run can be made in two parts. -/
theorem runs_agree (m : Machine β ω) :
    (m.cpu.holdPc = false → ∀ {addr : Addr} {k : Nat} {verdict : Except ExecError Unit}
      {m' : Machine β ω}, EndsAfter k (m.startAt addr) verdict m' → ∀ {count : Nat}, k ≤ count →
        let run := (m.modifyRegs (·.setPc addr)).runFor count
        run.1 = verdict.map (fun _ => k) ∧ Same m' run.2) ∧
    (∀ {count k : Nat} {m' : Machine β ω}, m.runFor count = (.ok k, m') ↔
      let m₀ : Machine β ω := { m with stop := false }
      k ≤ count ∧ (∀ j < k, (m₀.after j).step.1 = .ok ()) ∧
        (∀ j, j + 1 < k → (m₀.after (j + 1)).stop = false) ∧
        (k = count ∨ 1 ≤ k ∧ (m₀.after k).stop = true) ∧ m' = m₀.after k) ∧
    (∀ (count : Nat) (stop : Bool), { m with stop }.runFor count = m.runFor count) ∧
    ∀ {first : Nat} {m₁ : Machine β ω}, m.runFor first = (.ok first, m₁) → m₁.stop = false →
      ∀ second, m.runFor (first + second) =
        ((m₁.runFor second).1.map (first + ·), (m₁.runFor second).2) := by
  refine ⟨?_, ?_, fun _ _ => rfl, ?_⟩
  · intro hh addr k verdict m' h count hk
    obtain ⟨outcome, same⟩ := h.runFrom 0 hk
    obtain ⟨outcome', same'⟩ := simulation_same.runFrom (same_startAt addr m) 0 count
    rw [placedAt_eq hh] at outcome' same'
    rw [Nat.zero_add] at outcome
    exact ⟨outcome'.symm.trans outcome, same.trans same'.symm⟩
  · intro count k m'
    rw [runFor_eq_ok, advances_iff]
    constructor
    · rintro ⟨hk, ⟨rfl, steps⟩, last⟩
      refine ⟨hk, fun j hj => (steps j hj).1, fun j hj => (steps (j + 1) hj).2, ?_, rfl⟩
      refine last.imp_right fun stopped => ⟨?_, stopped⟩
      -- no stop is asked for before the first step
      apply Nat.pos_of_ne_zero
      rintro rfl
      cases stopped
    · rintro ⟨hk, completes, running, last, rfl⟩
      refine ⟨hk, ⟨rfl, fun j hj => ⟨completes j hj, ?_⟩⟩, last.imp_right And.right⟩
      cases j with
      | zero => rfl
      | succ j => exact running j hj
  · intro first m₁ h running second
    obtain ⟨-, adv, -⟩ := runFor_eq_ok.1 h
    have same : ({ m₁ with stop := false } : Machine β ω) = m₁ := by rw [← running]
    rw [runFor, adv.runFrom, runFor, same, Nat.zero_add]
    exact runFrom_add first 0 second m₁

/-- `INX` and `DEX`, behind which a limit asks for a stop. -/
def limited : Machine Memory Limit where
  cpu := { regs := { pc := 0x8000 } }
  bus := (Memory.zero.write 0x8000 0xE8).write 0x8001 0xCA
  observers := [{ limit := 2 }]

theorem limited_runs_agree :
    (∃ m', EndsAfter 2 (limited.startAt 0x8000) (.ok ()) m' ∧
      (limited.runFor 5).1 = .ok 2 ∧ Same m' (limited.runFor 5).2) ∧
    ∃ m₁, limited.runFor 1 = (.ok 1, m₁) ∧ m₁.stop = false ∧
      limited.runFor 2 = ((m₁.runFor 1).1.map (1 + ·), (m₁.runFor 1).2) := by
  obtain ⟨startAt, -, -, parts⟩ := runs_agree limited
  constructor
  · have ends : EndsAfter 2 (limited.startAt 0x8000) (.ok ())
        ((limited.startAt 0x8000).resume 2).machine := by
      refine ⟨rfl, ?_⟩
      intro j hj
      match j, hj with
      | 0, _ => rfl
      | 1, _ => rfl
    have enough : 2 ≤ 5 := by decide
    exact ⟨_, ends, startAt rfl ends enough⟩
  · have one : limited.runFor 1 = (.ok 1, (limited.runFor 1).2) := rfl
    have running : (limited.runFor 1).2.stop = false := rfl
    exact ⟨_, one, running, parts one running 1⟩

end Mos6502.Machine
