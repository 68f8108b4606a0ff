import Mos6502.Proofs.Step

namespace Mos6502

/-- However it is answered, the probe ends without a fault, and `P` holds then of the observer and of
what it does with the request to stop. -/
def Probe.Safe {ω : Type} (P : ω → Control → Prop) : Probe ω → Prop
  | .done self control => P self control
  | .fault _ _ => False
  | .read _ _ next | .peek _ next => ∀ v, (next v).Safe P
  | .print _ next | .log _ next | .keep _ next | .pause _ next => next.Safe P

namespace Probe

variable {ω ω' σ : Type} {P Q : ω → Control → Prop}

theorem Safe.mono {p : Probe ω} (h : p.Safe P) (hPQ : ∀ o c, P o c → Q o c) : p.Safe Q := by
  induction p with
  | done self control => exact hPQ self control h
  | fault _ _ => exact h
  | read _ _ _ ih | peek _ _ ih => exact fun v => ih v (h v)
  | print _ _ ih | log _ _ ih | keep _ _ ih | pause _ _ ih => exact ih h

theorem safe_map {P : ω' → Control → Prop} (f : ω → ω') (p : Probe ω) :
    (p.map f).Safe P ↔ p.Safe fun o c => P (f o) c := by
  induction p with
  | done _ _ | fault _ _ => exact Iff.rfl
  | read _ _ _ ih | peek _ _ ih => exact forall_congr' ih
  | print _ _ ih | log _ _ ih | keep _ _ ih | pause _ _ ih => exact ih

theorem Safe.activity_ensures {p : Probe ω} (h : p.Safe P) (position : Nat) (put : ω → σ) :
    (p.activity position put).Ensures fun _ o =>
      o.Then (fun s a => P a.1 a.2 ∧ s = put a.1) fun _ why => ∀ a, why ≠ .abort a := by
  induction p with
  | done self control => exact ⟨h, rfl⟩
  | fault _ _ => exact h.elim
  | read _ _ _ ih => exact ⟨by simp, fun v => ih v (h v)⟩
  | peek _ _ ih => exact fun v => ih v (h v)
  | print _ _ ih | log _ _ ih | keep _ _ ih | pause _ _ ih => exact ih h

end Probe

namespace Observer

variable {ω : Type} [Observer ω]

/-- Observers of which `P` holds do not fault when they are told of an instruction, and `P` holds of
what they become. -/
def Keeps (P : ω → Prop) : Prop :=
  ∀ o, P o → ∀ view stop, (notify view stop o).Safe fun o' _ => P o'

/-- Observers of which `P` holds do not take back what others ask for either. -/
def KeepsRequests (P : ω → Prop) : Prop :=
  ∀ o, P o → ∀ view stop, (notify view stop o).Safe fun o' c => P o' ∧ c ≠ .withdraw

theorem KeepsRequests.keeps {P : ω → Prop} (h : KeepsRequests P) : Keeps P :=
  fun o ho view stop => (h o ho view stop).mono fun _ _ => And.left

/-- However often `o` is told of instructions, it never faults. -/
def NeverFaults (o : ω) : Prop := ∃ P : ω → Prop, Keeps P ∧ P o

theorem keeps_neverFaults : Keeps (NeverFaults (ω := ω)) := by
  rintro o ⟨P, keeps, ho⟩ view stop
  apply (keeps o ho view stop).mono
  intro o' _ ho'
  exact ⟨P, keeps, ho'⟩

/-- However often `o` is told of instructions, it neither faults nor takes back a request to stop. -/
def OnlyAsks (o : ω) : Prop := ∃ P : ω → Prop, KeepsRequests P ∧ P o

theorem OnlyAsks.neverFaults {o : ω} : OnlyAsks o → NeverFaults o
  | ⟨P, keeps, ho⟩ => ⟨P, keeps.keeps, ho⟩

theorem keepsRequests_onlyAsks : KeepsRequests (OnlyAsks (ω := ω)) := by
  rintro o ⟨P, keeps, ho⟩ view stop
  apply (keeps o ho view stop).mono
  rintro o' _ ⟨ho', stands⟩
  exact ⟨⟨P, keeps, ho'⟩, stands⟩

end Observer

namespace Engine

variable {ω : Type} [Observer ω] {P : ω → Prop}

theorem notifyFrom_keeps (hk : Observer.Keeps P) (view : View) {before rest : List ω} (stop : Bool)
    {e : Engine ω} (he : e.observers = before ++ rest) (ho : ∀ o ∈ before ++ rest, P o) :
    (notifyFrom view before rest stop).Ensures e fun _ o =>
      o.Then (fun e' _ => ∀ o ∈ e'.observers, P o) fun _ why => ∀ a, why ≠ .abort a := by
  induction rest generalizing before stop e with
  | nil =>
    show ∀ o ∈ e.observers, P o
    rwa [he]
  | cons o rest ih =>
    rw [notifyFrom_cons, Micro.ensures_bind]
    have safe := hk o (ho o (by simp)) view stop
    refine (safe.activity_ensures before.length _).mono fun _ ending told => ?_
    cases ending with
    | cut _ why => exact told
    | done e' a =>
      obtain ⟨kept, rfl⟩ : P a.1 ∧ e' = { e with observers := before ++ a.1 :: rest } := told
      apply ih (a.2.apply stop) (List.append_cons before a.1 rest)
      intro o' member
      simp only [List.mem_append, List.mem_singleton] at member
      rcases member with (earlier | rfl) | later
      · exact ho o' (by simp [earlier])
      · exact kept
      · exact ho o' (by simp [later])

theorem notify_keeps (hk : Observer.Keeps P) (view : View) {e : Engine ω}
    (ho : ∀ o ∈ e.observers, P o) : (notify view).Ensures e fun _ o =>
      o.Then (fun e' _ => ∀ o ∈ e'.observers, P o) fun _ why => ∀ a, why ≠ .abort a := by
  unfold notify
  simp only [Micro.ensures_bind, Micro.ensures_get, Finish.then_done]
  refine (notifyFrom_keeps hk view false (List.nil_append _).symm ho).mono fun _ ending told => ?_
  cases ending with
  | cut _ why => exact told
  | done e' stop =>
    cases stop with
    | false => exact told
    | true => exact told

end Engine

def Cpu.cycle : Micro Cpu Unit := do
  let _ ← instruction
  settle

namespace Machine

theorem cycle_on {β ω : Type} [Bus β] (m : Machine β ω) :
    Cpu.cycle.on m.cpu m.bus = m.instruct.andThen fun _ c b => Cpu.settle.on c b :=
  Micro.on_bind _ _ _ _

variable {β ω : Type} [Bus β] [Observer ω] {m : Machine β ω}

/-- On a bus that reading leaves as it is, a step in which no observer faults is a cycle. -/
theorem step_eq_cycle (hq : Bus.Quiet β) (h : ∀ f, m.step.1 ≠ .error (.fault f)) :
    let cycle := Cpu.cycle.on m.cpu m.bus
    m.step.1 = cycle.outcome ∧ m.step.2.cpu = cycle.state ∧ m.step.2.bus = cycle.bus := by
  rw [cycle_on]
  cases hi : m.instruct.outcome with
  | error why =>
    rw [step_of_failed hi, Ending.andThen_of_error hi]
    exact ⟨rfl, rfl, rfl⟩
  | ok view =>
    cases ht : (m.tell view).outcome with
    | error why =>
      obtain ⟨f, rfl⟩ := (Engine.notify_ensures view _).on_fault (fun _ _ _ cut => cut.2.2) ht
      exact absurd (step_of_tell_failed hi ht).1 (h f)
    | ok _ =>
      obtain ⟨outcome, engine, bus⟩ := step_of_told hi ht
      have same : (m.tell view).bus = m.instruct.bus :=
        hq.served (serves_told ht) (m.writesNothing_told view)
      rw [same] at outcome engine bus
      rw [Ending.andThen_of_ok hi]
      exact ⟨outcome, congrArg Engine.cpu engine, bus⟩

theorem step_keeps {P : ω → Prop} (hk : Observer.Keeps P) (hf : Bus.NeverFaults m.bus)
    (ho : ∀ o ∈ m.observers, P o) :
    (∀ f, m.step.1 ≠ .error (.fault f)) ∧ ∀ o ∈ m.step.2.observers, P o := by
  cases hi : m.instruct.outcome with
  | error why =>
    obtain ⟨e, rfl⟩ := (m.cpu.instruction_ensures.on_abort hf hi).1.error_of_abort
    rw [step_of_failed hi]
    exact ⟨by simp, ho⟩
  | ok view =>
    have hf₁ : Bus.NeverFaults m.instruct.bus :=
      hf.later (m.cpu.instruction_ensures.on_ok hi).2
    have told := Engine.notify_keeps hk view (e := m.instructed) ho
    have ht : (m.tell view).outcome = .ok () := by
      cases ht : (m.tell view).outcome with
      | ok _ => rfl
      | error why => exact absurd rfl ((told.on_abort hf₁ ht).1 why)
    obtain ⟨outcome, engine, -⟩ := step_of_told hi ht
    constructor
    · intro f hfault
      rw [outcome] at hfault
      have cut := ((Cpu.settle_ensures m.instruct.state).on_abort
        (hf₁.later (serves_told ht)) hfault).1
      exact absurd rfl (cut.ne_abort _)
    · rw [engine]
      exact (told.on_ok ht).1

end Machine

end Mos6502
