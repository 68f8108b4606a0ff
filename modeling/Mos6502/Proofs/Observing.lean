import Mos6502.Machine
import Mos6502.Proofs.Servicing
import Mos6502.Proofs.Storage

namespace Mos6502

namespace Control

/-- The request to stop, once it has gone through several hands. -/
def applyAll (cs : List Control) (stop : Bool) : Bool := cs.foldl (fun stop c => c.apply stop) stop

theorem applyAll_append (cs ds : List Control) (stop : Bool) :
    applyAll (cs ++ ds) stop = applyAll ds (applyAll cs stop) := List.foldl_append

theorem applyAll_of_not_withdraw {cs : List Control} (h : .withdraw ∉ cs) (stop : Bool) :
    applyAll cs stop = (stop || cs.any (· = .ask)) := by
  induction cs generalizing stop with
  | nil => exact (Bool.or_false stop).symm
  | cons c cs ih =>
    rw [List.mem_cons, not_or] at h
    show applyAll cs (c.apply stop) = _
    rw [ih h.2]
    cases c with
    | leave => rfl
    | ask => cases stop <;> rfl
    | withdraw => exact absurd rfl h.1

theorem applyAll_of_ask {cs : List Control} (h : .withdraw ∉ cs) (before : List Control)
    (stop : Bool) : applyAll (before ++ .ask :: cs) stop = true := by
  rw [applyAll_append]
  show applyAll cs true = true
  rw [applyAll_of_not_withdraw h, Bool.true_or]

end Control

theorem Probe.activity_ensures {ω σ : Type} (position : Nat) (put : ω → σ) (p : Probe ω) :
    (p.activity position put).Ensures fun es o => OnlyLooks es ∧
      o.Then (fun s a => s = put a.1) fun s why => (∃ self, s = put self) ∧ why.IsFault := by
  induction p with
  | done self control => exact ⟨by simp, rfl⟩
  | fault self f => exact ⟨by simp, ⟨self, rfl⟩, trivial⟩
  | read self addr next ih =>
    refine ⟨⟨by simp, ⟨self, rfl⟩, trivial⟩, fun v => (ih v).mono fun es o h => ?_⟩
    simpa using h
  | peek addr next ih => exact fun v => (ih v).mono fun es o h => by simpa using h
  | print text next ih | log line next ih | keep s next ih | pause ms next ih =>
    exact ih.mono fun es o h => by simpa using h

namespace Engine

variable {ω : Type} [Observer ω]

def tell (view : View) (before rest : List ω) (stop : Bool) (o : ω) :
    Micro (Engine ω) (ω × Control) := fun e =>
  (Observer.notify view stop o).activity before.length fun self =>
    { e with observers := before ++ self :: rest }

theorem notifyFrom_cons (view : View) (before rest : List ω) (stop : Bool) (o : ω) :
    notifyFrom view before (o :: rest) stop = (tell view before rest stop o >>= fun a =>
      notifyFrom view (before ++ [a.1]) rest (a.2.apply stop)) := rfl

theorem tell_ensures (view : View) (before rest : List ω) (stop : Bool) (o : ω) (e : Engine ω) :
    (tell view before rest stop o).Ensures e fun es o => OnlyLooks es ∧
      o.Then (fun e' _ => e'.cpu = e.cpu) fun e' why => e'.cpu = e.cpu ∧ why.IsFault := by
  refine (Probe.activity_ensures _ _ _).mono fun es o h => ⟨h.1, ?_⟩
  cases o with
  | done e' a =>
    have he : e' = { e with observers := before ++ a.1 :: rest } := h.2
    rw [Finish.then_done, he]
  | cut e' why =>
    obtain ⟨⟨self, rfl⟩, hw⟩ := h.2
    exact ⟨rfl, hw⟩

theorem notifyFrom_ensures (view : View) (before rest : List ω) (stop : Bool) (e : Engine ω) :
    (notifyFrom view before rest stop).Ensures e fun es o => OnlyLooks es ∧
      o.Then (fun e' _ => e'.cpu = e.cpu) fun e' why => e'.cpu = e.cpu ∧ why.IsFault := by
  -- by induction on the observers still to be told; the ones before them only move along
  induction rest generalizing before stop e with
  | nil => exact ⟨by simp, rfl⟩
  | cons o rest ih =>
    rw [notifyFrom_cons, Micro.ensures_bind]
    refine (tell_ensures view before rest stop o e).mono fun es o h => ?_
    cases o with
    | cut e' why => exact h
    | done e' a =>
      refine (ih (before ++ [a.1]) (a.2.apply stop) e').mono fun fs o h' => ⟨?_, ?_⟩
      · rw [onlyLooks_append]
        exact ⟨h.1, h'.1⟩
      · have hcpu : e'.cpu = e.cpu := h.2
        rw [← hcpu]
        exact h'.2

/-- Telling the observers of an instruction writes nothing and leaves the processor alone. -/
theorem notify_ensures (view : View) (e : Engine ω) :
    (notify view).Ensures e fun es o => OnlyLooks es ∧
      o.Then (fun e' _ => e'.cpu = e.cpu) fun e' why => e'.cpu = e.cpu ∧ why.IsFault := by
  unfold notify
  simp only [Micro.ensures_bind, Micro.ensures_get, Finish.then_done, List.nil_append]
  refine (notifyFrom_ensures view [] e.observers false e).mono fun es o h => ?_
  cases o with
  | cut e' why => exact h
  | done e' stop =>
    cases stop with
    | false => simpa using h
    | true => simpa using h

theorem notify_of_nil (view : View) {e : Engine ω} (h : e.observers = []) :
    notify view e = .done e () := by
  show (notifyFrom view [] e.observers false e).andThen _ = _
  rw [h]
  rfl

end Engine

end Mos6502
