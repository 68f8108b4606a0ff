import Mathlib.Data.Nat.Find
import Mos6502.Bus.Guarded
import Mos6502.Proofs.Progress

namespace Mos6502

def refusalOf (rules : List GuardRule) (a : Access) : Option Fault :=
  (rules.find? fun r => r.Matches a.kind a.addr).map fun r => r.refusal.fault a.kind a.addr

def Spared (rules : List GuardRule) (as : List Access) : Prop :=
  ∀ a ∈ as, ∀ r ∈ rules, ¬ r.Matches a.kind a.addr

instance (rules : List GuardRule) (as : List Access) : Decidable (Spared rules as) :=
  inferInstanceAs (Decidable (∀ a ∈ as, ∀ r ∈ rules, ¬ r.Matches a.kind a.addr))

section Rules

variable {rules : List GuardRule} {a : Access} {as bs : List Access}

theorem refusalOf_eq_none : refusalOf rules a = none ↔ ∀ r ∈ rules, ¬ r.Matches a.kind a.addr := by
  simp [refusalOf]

theorem spared_cons : Spared rules (a :: as) ↔ refusalOf rules a = none ∧ Spared rules as := by
  simp [Spared, refusalOf_eq_none]

theorem spared_append : Spared rules (as ++ bs) ↔ Spared rules as ∧ Spared rules bs := by
  simp [Spared, or_imp, forall_and]

theorem exists_first_refusal (h : ¬ Spared rules as) : ∃ before a rest f,
    as = before ++ a :: rest ∧ Spared rules before ∧ refusalOf rules a = some f := by
  induction as with
  | nil => exact absurd (by simp [Spared]) h
  | cons a as ih =>
    cases hr : refusalOf rules a with
    | some f => exact ⟨[], a, as, f, rfl, by simp [Spared], hr⟩
    | none =>
      have later : ¬ Spared rules as := fun hs => h (spared_cons.2 ⟨hr, hs⟩)
      obtain ⟨before, a', rest, f, rfl, spared, refused⟩ := ih later
      exact ⟨a :: before, a', rest, f, rfl, spared_cons.2 ⟨hr, spared⟩, refused⟩

end Rules

theorem within_or_behind {own others before rest : List Access} {a : Access}
    (h : before ++ a :: rest = own ++ others) : (∃ own', own = before ++ a :: own') ∨
      ∃ behind, before = own ++ behind ∧ others = behind ++ a :: rest := by
  rcases List.append_eq_append_iff.1 h with ⟨tail, made, later⟩ | ⟨behind, made, later⟩
  · rcases List.append_eq_cons_iff.1 later.symm with ⟨rfl, later⟩ | ⟨tail, rfl, -⟩
    · refine .inr ⟨[], ?_, later.symm⟩
      rw [made, List.append_nil, List.append_nil]
    · exact .inl ⟨tail, made⟩
  · exact .inr ⟨behind, made, later⟩

namespace Guarded

variable {β : Type} [Bus β] {b b' : β} {rules : List GuardRule} {addr : Addr} {v : Byte}

theorem read_of_spared (hs : refusalOf rules ⟨.read, addr, v⟩ = none)
    (hr : Bus.read b addr = (.ok v, b')) :
    Bus.read (Guarded.mk b rules) addr = (.ok v, ⟨b', rules⟩) := by
  have passes : (Guarded.mk b rules).refuses .read addr = none := hs
  simp only [Bus.read, passes, hr]

theorem write_of_spared (hs : refusalOf rules ⟨.write, addr, v⟩ = none)
    (hw : Bus.write b addr v = (.ok (), b')) :
    Bus.write (Guarded.mk b rules) addr v = (.ok (), ⟨b', rules⟩) := by
  have passes : (Guarded.mk b rules).refuses .write addr = none := hs
  simp only [Bus.write, passes, hw]

theorem poll_of_ok {line : Bool} (hp : Bus.poll b = (.ok line, b')) :
    Bus.poll (Guarded.mk b rules) = (.ok line, ⟨b', rules⟩) := by
  simp only [Bus.poll, hp]

theorem read_of_refused {f : Fault} (hs : refusalOf rules ⟨.read, addr, v⟩ = some f) :
    Bus.read (Guarded.mk b rules) addr = (.error f, ⟨b, rules⟩) := by
  have meets : (Guarded.mk b rules).refuses .read addr = some f := hs
  simp only [Bus.read, meets]

theorem write_of_refused {f : Fault} (hs : refusalOf rules ⟨.write, addr, v⟩ = some f) :
    Bus.write (Guarded.mk b rules) addr v = (.error f, ⟨b, rules⟩) := by
  have meets : (Guarded.mk b rules).refuses .write addr = some f := hs
  simp only [Bus.write, meets]

end Guarded

namespace Activity

variable {σ α β : Type} [Bus β] {rules : List GuardRule}

/-- Rules that match none of the accesses make no difference. -/
theorem on_guarded_of_spared (p : Activity σ α) {b : β} (hf : Bus.NeverFaults b)
    (h : Spared rules (accesses (p.events b))) :
    p.on (Guarded.mk b rules) = (p.on b).mapBus fun b' => ⟨b', rules⟩ := by
  induction p generalizing b with
  | done | abort => rfl
  | read s addr next ih =>
    obtain ⟨v, b', hr, hf'⟩ := hf.reads addr
    simp only [events, hr, accesses_access, spared_cons] at h
    simp only [on, Guarded.read_of_spared h.1 hr, hr]
    exact ih v hf' h.2
  | write s addr v next ih =>
    obtain ⟨b', hw, hf'⟩ := hf.writes addr v
    simp only [events, hw, accesses_access, spared_cons] at h
    simp only [on, Guarded.write_of_spared h.1 hw, hw]
    exact ih hf' h.2
  | peek addr next ih => exact ih _ hf h
  | poll s next ih =>
    obtain ⟨line, b', polled, hf'⟩ := hf.polls
    simp only [events, polled, accesses_poll] at h
    simp only [on, Guarded.poll_of_ok polled, polled]
    exact ih line hf' h
  | note n next ih =>
    simp only [on, ih hf h]
    rfl

theorem events_guarded_of_spared (p : Activity σ α) {b : β} (hf : Bus.NeverFaults b)
    (h : Spared rules (accesses (p.events b))) :
    p.events (Guarded.mk b rules) = p.events b := by
  induction p generalizing b with
  | done | abort => rfl
  | read s addr next ih =>
    obtain ⟨v, b', hr, hf'⟩ := hf.reads addr
    simp only [events, hr, accesses_access, spared_cons] at h
    simp only [events, Guarded.read_of_spared h.1 hr, hr, ih v hf' h.2]
  | write s addr v next ih =>
    obtain ⟨b', hw, hf'⟩ := hf.writes addr v
    simp only [events, hw, accesses_access, spared_cons] at h
    simp only [events, Guarded.write_of_spared h.1 hw, hw, ih hf' h.2]
  | peek addr next ih => exact congrArg (_ :: ·) (ih _ hf h)
  | poll s next ih =>
    obtain ⟨line, b', polled, hf'⟩ := hf.polls
    simp only [events, polled, accesses_poll] at h
    simp only [events, Guarded.poll_of_ok polled, polled, ih line hf' h]
  | note n next ih => exact congrArg (_ :: ·) (ih hf h)

/-- At the first access that a rule refuses the work ends, with the accesses before it made. -/
theorem on_guarded_of_refused (p : Activity σ α) {b : β} (hf : Bus.NeverFaults b)
    {before rest : List Access} {a : Access} {f : Fault}
    (h : accesses (p.events b) = before ++ a :: rest) (hs : Spared rules before)
    (hr : refusalOf rules a = some f) :
    let es := p.events (Guarded.mk b rules)
    (p.on (Guarded.mk b rules)).outcome = .error (.fault f) ∧ accesses es = before ∧
      es <+: p.events b ∧
      ∃ b', Answers b es b' ∧ (p.on (Guarded.mk b rules)).bus = ⟨b', rules⟩ := by
  -- along the work: an access is one of those before the refused one, or this itself
  induction p generalizing b before with
  | done | abort => simp [events] at h
  | read s addr next ih =>
    obtain ⟨v, b', read, hf'⟩ := hf.reads addr
    simp only [events, read, accesses_access] at h
    cases before with
    | nil =>
      obtain ⟨rfl, -⟩ := List.cons.inj h
      simp only [on, events, Guarded.read_of_refused hr]
      exact ⟨trivial, rfl, List.nil_prefix, b, .nil b, rfl⟩
    | cons a' before =>
      obtain ⟨rfl, later⟩ := List.cons.inj h
      rw [spared_cons] at hs
      obtain ⟨outcome, made, starts, b'', answered, bus⟩ := ih v hf' later hs.2
      simp only [on, events, Guarded.read_of_spared hs.1 read, read]
      exact ⟨outcome, congrArg (_ :: ·) made, (List.prefix_cons_inj _).2 starts, b'',
        .read read answered, bus⟩
  | write s addr v next ih =>
    obtain ⟨b', write, hf'⟩ := hf.writes addr v
    simp only [events, write, accesses_access] at h
    cases before with
    | nil =>
      obtain ⟨rfl, -⟩ := List.cons.inj h
      simp only [on, events, Guarded.write_of_refused hr]
      exact ⟨trivial, rfl, List.nil_prefix, b, .nil b, rfl⟩
    | cons a' before =>
      obtain ⟨rfl, later⟩ := List.cons.inj h
      rw [spared_cons] at hs
      obtain ⟨outcome, made, starts, b'', answered, bus⟩ := ih hf' later hs.2
      simp only [on, events, Guarded.write_of_spared hs.1 write, write]
      exact ⟨outcome, congrArg (_ :: ·) made, (List.prefix_cons_inj _).2 starts, b'',
        .write write answered, bus⟩
  | peek addr next ih =>
    obtain ⟨outcome, made, starts, b', answered, bus⟩ := ih _ hf h hs
    exact ⟨outcome, made, (List.prefix_cons_inj _).2 starts, b', .peek addr answered, bus⟩
  | poll s next ih =>
    obtain ⟨line, b', polled, hf'⟩ := hf.polls
    simp only [events, polled, accesses_poll] at h
    obtain ⟨outcome, made, starts, b'', answered, bus⟩ := ih line hf' h hs
    simp only [on, events, Guarded.poll_of_ok polled, polled]
    exact ⟨outcome, made, (List.prefix_cons_inj _).2 starts, b'', .poll polled answered, bus⟩
  | note n next ih =>
    obtain ⟨outcome, made, starts, b', answered, bus⟩ := ih hf h hs
    exact ⟨outcome, made, (List.prefix_cons_inj _).2 starts, b', .note n answered, bus⟩

end Activity

namespace Machine

variable {β ω : Type} [Bus β] [Observer ω]

def guard (rules : List GuardRule) (m : Machine β ω) : Machine (Guarded β) ω :=
  ⟨m.toEngine, ⟨m.bus, rules⟩, m.journal, m.logging⟩

variable {rules : List GuardRule} {m m' : Machine β ω} {before rest : List Access} {a : Access}
  {f : Fault}

theorem step_guard_of_spared (hf : Bus.NeverFaults m.bus) (h : Spared rules m.stepAccesses) :
    (m.guard rules).step = (m.step.1, m.step.2.guard rules) := by
  have run : Engine.step.on m.toEngine (Guarded.mk m.bus rules) =
      (Engine.step.on m.toEngine m.bus).mapBus fun b => ⟨b, rules⟩ :=
    Activity.on_guarded_of_spared _ hf h
  rw [step_eq, step_eq]
  show (_, Machine.mk (Engine.step.on m.toEngine (Guarded.mk m.bus rules)).state _ _ _) = _
  rw [show (m.guard rules).toEngine = m.toEngine from rfl,
    show (m.guard rules).bus = Guarded.mk m.bus rules from rfl, run]
  rfl

theorem guardedStep_guard_of_spared (hf : Bus.NeverFaults m.bus)
    (h : Spared rules m.stepAccesses) :
    (m.guard rules).guardedStep = (m.guardedStep.1, m.guardedStep.2.guard rules) := by
  unfold guardedStep
  rw [step_guard_of_spared hf h]
  rcases m.step with ⟨(f | e) | _, m₁⟩ <;> rfl

theorem instruct_guard_of_refused (hf : Bus.NeverFaults m.bus)
    (h : m.instructionAccesses = before ++ a :: rest) (hs : Spared rules before)
    (hr : refusalOf rules a = some f) :
    (m.guard rules).step.2.cpu.fetched = m.cpu.fetchedBy before ∧
      (m.guard rules).step.2.cpu.executed = m.cpu.executed := by
  obtain ⟨cut, made, -⟩ := Activity.on_guarded_of_refused _ hf h hs hr
  have same : (m.guard rules).instructionAccesses = before := made
  obtain ⟨fetched, -, failed⟩ := (m.guard rules).step_progress
  rw [same] at fetched
  exact ⟨fetched, failed _ cut⟩

theorem instruct_guard_of_spared (hf : Bus.NeverFaults m.bus)
    (hs : Spared rules m.instructionAccesses) {view : View}
    (hi : m.instruct.outcome = .ok view) (behind : List Access) :
    (m.guard rules).step.2.cpu.fetched = m.cpu.fetchedBy (m.instructionAccesses ++ behind) ∧
      (m.guard rules).step.2.cpu.executed = m.cpu.executed + 1 := by
  have run : (m.guard rules).instruct = m.instruct.mapBus fun b => ⟨b, rules⟩ :=
    Activity.on_guarded_of_spared _ hf hs
  have same : (m.guard rules).instructionAccesses = m.instructionAccesses :=
    congrArg accesses (Activity.events_guarded_of_spared _ hf hs)
  have completes : (m.guard rules).instruct.outcome = .ok view := by
    rw [run]
    exact hi
  obtain ⟨-, -, -, fetches, -⟩ := fetches_of_neverFaults hf
  obtain ⟨fetched, completed, -⟩ := (m.guard rules).step_progress
  rw [same] at fetched
  rw [Cpu.fetchedBy_append _ fetches]
  exact ⟨fetched, completed view completes⟩

/-- Where a rule refuses an access of a step, the step ends with the accesses before it made. The
instruction is counted if the refused access is not its own. -/
theorem step_guard_of_refused (hf : Bus.NeverFaults m.bus)
    (h : m.stepAccesses = before ++ a :: rest) (hs : Spared rules before)
    (hr : refusalOf rules a = some f) :
    let left := (m.guard rules).step.2
    (m.guard rules).step.1 = .error (.fault f) ∧
      (∃ es b, es <+: m.stepEvents ∧ accesses es = before ∧ Answers m.bus es b ∧
        left.bus = ⟨b, rules⟩) ∧
      left.cpu.fetched = m.cpu.fetchedBy before ∧
      left.cpu.executed =
        m.cpu.executed + if before.length < m.instructionAccesses.length then 0 else 1 := by
  obtain ⟨outcome, made, starts, b, answered, bus⟩ :=
    Activity.on_guarded_of_refused _ hf h hs hr
  refine ⟨outcome, ⟨_, b, starts, made, answered, bus⟩, ?_⟩
  obtain ⟨others, split, none⟩ := m.stepAccesses_eq
  rw [h] at split
  rcases within_or_behind split with ⟨own, made⟩ | ⟨behind, rfl, later⟩
  · rw [made, if_pos (by simp)]
    exact instruct_guard_of_refused hf made hs hr
  · rw [if_neg (by simp)]
    cases hi : m.instruct.outcome with
    | error why =>
      rw [none why hi] at later
      simp at later
    | ok view => exact instruct_guard_of_spared hf (spared_append.1 hs).1 hi behind

/-- A run of `m` for `count` instructions comes to `m'` and takes up the instruction there, after
`j` of them. -/
structure Attempts (m : Machine β ω) (count j : Nat) (m' : Machine β ω) : Prop where
  reached : Advances j { m with stop := false } m'
  running : m'.stop = false
  within : j < count

/-- Of the steps that a run of `m` for `count` instructions attempts, the one after `j` of them, from
`m'`, is the first with an access that a rule refuses: `a`, behind the accesses `before`. The fault
is `f`. -/
structure Meets (rules : List GuardRule) (m : Machine β ω) (count j : Nat) (m' : Machine β ω)
    (before : List Access) (a : Access) (f : Fault) : Prop where
  attempt : m.Attempts count j m'
  earlier {i : Nat} {m₁ : Machine β ω} (hi : i < j) (h : m.Attempts count i m₁) :
    Spared rules m₁.stepAccesses
  made : ∃ rest, m'.stepAccesses = before ++ a :: rest
  spared : Spared rules before
  refused : refusalOf rules a = some f

theorem Advances.guard {j : Nat} (h : Advances j m m') (hf : Bus.NeverFaults m.bus)
    (hs : ∀ i < j, ∀ m₁, Advances i m m₁ → m₁.stop = false → Spared rules m₁.stepAccesses) :
    Advances j (m.guard rules) (m'.guard rules) := by
  induction h with
  | refl m => exact .refl _
  | @step j m m₁ m' running stepped later ih =>
    obtain ⟨es, -, answered⟩ := step_traced hf
    rw [stepped] at answered
    have first : (m.guard rules).step = (.ok (), m₁.guard rules) := by
      rw [step_guard_of_spared hf (hs 0 (Nat.succ_pos j) m (.refl m) running), stepped]
    refine .step running first (ih (hf.later answered) fun i hi m₂ reached => ?_)
    exact hs (i + 1) (Nat.succ_lt_succ hi) m₂ (.step running stepped reached)

/-- If not all steps that a run attempts are spared, one of them is the first that is not. -/
theorem Attempts.exists_meets {count j : Nat} (h : m.Attempts count j m')
    (hs : ¬ Spared rules m'.stepAccesses) :
    ∃ i m₁ before a f, Meets rules m count i m₁ before a f := by
  classical
  have some : ∃ j m', m.Attempts count j m' ∧ ¬ Spared rules m'.stepAccesses := ⟨j, m', h, hs⟩
  obtain ⟨m₁, attempt, refused⟩ := Nat.find_spec some
  obtain ⟨before, a, rest, f, made, spared, refused⟩ := exists_first_refusal refused
  refine ⟨_, m₁, before, a, f, attempt, fun {i m₂} hi h => ?_, ⟨rest, made⟩, spared, refused⟩
  refine Classical.byContradiction fun not => ?_
  exact Nat.find_min some hi ⟨m₂, h, not⟩

theorem Advances.guard_of_attempts {count k : Nat} (adv : Advances k { m with stop := false } m')
    (hk : k ≤ count) (hf : Bus.NeverFaults m.bus)
    (hs : ∀ i < k, ∀ m₁, m.Attempts count i m₁ → Spared rules m₁.stepAccesses) :
    Advances k { m.guard rules with stop := false } (m'.guard rules) := by
  have spared : ∀ i < k, ∀ m₁, Advances i { m with stop := false } m₁ → m₁.stop = false →
      Spared rules m₁.stepAccesses := fun i hi m₁ reached running =>
    hs i hi m₁ ⟨reached, running, Nat.lt_of_lt_of_le hi hk⟩
  exact adv.guard hf spared

theorem runFor_guard_of_spared (hf : Bus.NeverFaults m.bus) {count : Nat}
    (hs : ∀ j m', m.Attempts count j m' → Spared rules m'.stepAccesses) :
    (m.guard rules).runFor count = ((m.runFor count).1, (m.runFor count).2.guard rules) := by
  obtain ⟨k, m', adv, ends⟩ := ran count m
  generalize m.runFor count = r at ends
  cases ends with
  | completed hk last =>
    have guarded := adv.guard_of_attempts hk hf fun i _ => hs i
    exact runFrom_eq_ok.2 ⟨k, hk, (Nat.zero_add k).symm, guarded, last⟩
  | @failed hk running e m₁ failed =>
    have guarded := adv.guard_of_attempts (Nat.le_of_lt hk) hf fun i _ => hs i
    have next :=
      guardedStep_guard_of_spared (adv.neverFaults hf) (hs k m' ⟨adv, running, hk⟩)
    rw [failed] at next
    exact guarded.runFor_of_error hk running next

/-- What is left of a run of `m` that meets a rule in its step from `m'`, after `j` others, when the
accesses `before` have been made. -/
structure Struck (m : Machine β ω) (rules : List GuardRule) (j : Nat) (m' : Machine β ω)
    (before : List Access) (f : Fault) (r : Except ExecError Nat × Machine (Guarded β) ω) :
    Prop where
  /-- The opcode is that of the step, if it has been fetched, and else the last before it. -/
  error : ∃ opcode rest, m'.stepAccesses = ⟨.read, m'.cpu.regs.pc, opcode⟩ :: rest ∧
    let fetched := if before = [] then m'.cpu.fetched else opcode
    let fails (message : String) := r.1 = .error (.internalFault fetched m'.cpu.regs.pc message)
    (∀ text, f = .text text → fails text) ∧ (f = .silent → fails "unknown panic payload")
  /-- That one is the opcode of the step before, or what was fetched before the run. -/
  last : (j = 0 → m'.cpu.fetched = m.cpu.fetched) ∧ ∀ {i m₁}, j = i + 1 →
    Advances i { m with stop := false } m₁ →
      ∃ rest, m₁.stepAccesses = ⟨.read, m₁.cpu.regs.pc, m'.cpu.fetched⟩ :: rest
  /-- The instruction of the step is counted if its own accesses were made. -/
  executed : r.2.cpu.executed = m.cpu.executed + j +
    if before.length < m'.instructionAccesses.length then 0 else 1
  /-- The bus within has answered what the step did up to there. -/
  bus : ∃ es b, es <+: m'.stepEvents ∧ accesses es = before ∧ Answers m'.bus es b ∧
    r.2.bus = ⟨b, rules⟩

theorem Advances.last_fetched {i : Nat} {m₁ : Machine β ω} (h : Advances (i + 1) m m')
    (h₁ : Advances i m m₁) (hf : Bus.NeverFaults m.bus) :
    ∃ rest, m₁.stepAccesses = ⟨.read, m₁.cpu.regs.pc, m'.cpu.fetched⟩ :: rest := by
  obtain ⟨opcode, rest, first, -, fetched⟩ := fetches_of_neverFaults (h₁.neverFaults hf)
  obtain rfl := (advances_iff.1 h₁).1
  obtain rfl := (advances_iff.1 h).1
  rw [after_succ, fetched]
  exact ⟨rest, first⟩

theorem Meets.struck {count j : Nat} (h : Meets rules m count j m' before a f)
    (hf : Bus.NeverFaults m.bus) :
    (m.guard rules).Attempts count j (m'.guard rules) ∧
      m.Struck rules j m' before f ((m.guard rules).runFor count) := by
  obtain ⟨adv, running, within⟩ := h.attempt
  have guarded := adv.guard_of_attempts (Nat.le_of_lt within) hf fun i hi m₁ => h.earlier hi
  have hf' : Bus.NeverFaults m'.bus := adv.neverFaults hf
  obtain ⟨rest, made⟩ := h.made
  obtain ⟨outcome, bus, fetched, executed⟩ := step_guard_of_refused hf' made h.spared h.refused
  have stepped : (m'.guard rules).guardedStep =
      (.error (.internalFault (m'.cpu.fetchedBy before) m'.cpu.regs.pc f.message),
        (m'.guard rules).step.2) := by
    have fails : (m'.guard rules).step = (.error (.fault f), (m'.guard rules).step.2) :=
      Prod.ext outcome rfl
    rw [guardedStep, fails]
    show (Except.error (ExecError.internalFault (m'.guard rules).step.2.cpu.fetched _ _), _) = _
    rw [fetched]
    rfl
  rw [guarded.runFor_of_error within running stepped]
  refine ⟨⟨guarded, running, within⟩, ?_, ⟨?_, ?_⟩, ?_, bus⟩
  · obtain ⟨opcode, others, first, -⟩ := fetches_of_neverFaults hf'
    have remembers : m'.cpu.fetchedBy before = if before = [] then m'.cpu.fetched else opcode := by
      cases before with
      | nil => rfl
      | cons a' before =>
        rw [made] at first
        obtain ⟨rfl, -⟩ := List.cons.inj first
        rfl
    rw [remembers]
    refine ⟨opcode, others, first, ?_, ?_⟩
    · rintro text rfl
      rfl
    · rintro rfl
      rfl
  · rintro rfl
    cases adv
    rfl
  · rintro i m₁ rfl before
    exact adv.last_fetched before hf
  · rw [executed, adv.executed]

/-- A run on a bus with rules is the run on the bus without them, up to the first access that a rule
refuses. The error that it then ends with names the place of that step and the opcode fetched last. -/
theorem guarded_run (hf : Bus.NeverFaults m.bus) (rules : List GuardRule) (count : Nat) :
    ((∀ j m', m.Attempts count j m' → Spared rules m'.stepAccesses) →
      (m.guard rules).runFor count = ((m.runFor count).1, (m.runFor count).2.guard rules)) ∧
    (∀ j m', m.Attempts count j m' → ¬ Spared rules m'.stepAccesses →
      ∃ i m₁ before a f, Meets rules m count i m₁ before a f) ∧
    ∀ j m' before a f, Meets rules m count j m' before a f →
      (m.guard rules).Attempts count j (m'.guard rules) ∧
      m.Struck rules j m' before f ((m.guard rules).runFor count) :=
  ⟨runFor_guard_of_spared hf, fun _ _ h hs => h.exists_meets hs, fun _ _ _ _ _ h => h.struck hf⟩

def breaking : Machine Memory Empty where
  cpu := { regs := { pc := 0x8000 } }
  bus := Memory.zero.write 0x8000 0xEA

/-- `BRK` has been counted when the low byte of its return address cannot be pushed. The fault says
why, or nothing. -/
theorem breaking_is_struck :
    let rule (refusal : Refusal) : GuardRule := ⟨.write, 0x01FC, 0x01FC, refusal⟩
    let struck (refusal : Refusal) (f : Fault) (message : String) :=
      let before : List Access := [⟨.read, 0x8001, 0x00⟩, ⟨.write, 0x01FD, 0x80⟩]
      let run := (breaking.guard [rule refusal]).runFor 5
      Meets [rule refusal] breaking 5 1 breaking.step.2 before ⟨.write, 0x01FC, 0x02⟩ f ∧
      breaking.Struck [rule refusal] 1 breaking.step.2 before f run ∧
      run.1 = .error (.internalFault 0x00 0x8001 message) ∧ run.2.cpu.executed = 2
    struck .silent .silent "unknown panic payload" ∧
    struck (.text "stack overflow") (.text "stack overflow") "stack overflow" ∧
    struck .unmapped (.text "write to 0x01FC is not mapped") "write to 0x01FC is not mapped" := by
  intro rule struck
  have spared (refusal : Refusal) (as : List Access) (h : ∀ a ∈ as, a.addr ≠ 0x01FC) :
      Spared [rule refusal] as := by
    rintro a ha r hr ⟨-, first, last⟩
    obtain rfl := List.mem_singleton.1 hr
    exact h a ha (UInt16.le_antisymm last first)
  have starts : breaking.step.2.stepAccesses.head? = some ⟨.read, 0x8001, 0x00⟩ := by decide
  have strikes {refusal : Refusal} {f : Fault} {message : String}
      (refused : refusalOf [rule refusal] ⟨.write, 0x01FC, 0x02⟩ = some f)
      (spoken : f = .text message ∨ f = .silent ∧ message = "unknown panic payload") :
      struck refusal f message := by
    have meets : Meets [rule refusal] breaking 5 1 breaking.step.2
        [⟨.read, 0x8001, 0x00⟩, ⟨.write, 0x01FD, 0x80⟩] ⟨.write, 0x01FC, 0x02⟩ f := by
      refine ⟨⟨.step rfl rfl (.refl _), rfl, by decide⟩, fun {i m₁} hi h => ?_, ⟨_, rfl⟩,
        spared refusal _ (by decide), refused⟩
      obtain rfl : i = 0 := Nat.lt_one_iff.1 hi
      cases h.reached
      exact spared refusal _ (by decide)
    have left := ((guarded_run Memory.neverFaults [rule refusal] 5).2.2 _ _ _ _ _ meets).2
    refine ⟨meets, left, ?_, left.executed⟩
    obtain ⟨opcode, others, first, told, untold⟩ := left.error
    rw [first] at starts
    cases starts
    rcases spoken with rfl | ⟨rfl, rfl⟩
    · exact told message rfl
    · exact untold rfl
  exact ⟨strikes rfl (.inr ⟨rfl, rfl⟩), strikes rfl (.inl rfl), strikes rfl (.inl rfl)⟩

end Machine

end Mos6502
