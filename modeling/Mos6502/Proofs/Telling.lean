import Mos6502.Proofs.Unobserved

namespace Mos6502

/-- One notification: the observer at `position` is shown `view`, on the bus `bus`. -/
structure Telling (β ω : Type) where
  position : Nat
  observer : ω
  view : View
  /-- The request to stop, as the observers before this one have left it. -/
  stopSeen : Bool
  bus : β

theorem Probe.activity_eq_mapState {ω σ : Type} (position : Nat) (put : ω → σ) (p : Probe ω) :
    p.activity position put = (p.activity position id).mapState put := by
  induction p with
  | done | fault => rfl
  | read self addr next ih => exact congrArg (Activity.read (put self) addr) (funext ih)
  | peek addr next ih => exact congrArg (Activity.peek addr) (funext ih)
  | print text next ih => exact congrArg (Activity.note (.printed position text)) ih
  | log line next ih => exact congrArg (Activity.note (.log line)) ih
  | keep s next ih => exact congrArg (Activity.note (.snapshot s)) ih
  | pause ms next ih => exact congrArg (Activity.note (.pause ms)) ih

def Observer.told {ω : Type} [Observer ω] (view : View) (stopSeen : Bool) (position : Nat) :
    Micro ω (ω × Control) := fun o => (notify view stopSeen o).activity position id

namespace Telling

variable {β ω : Type} [Bus β] [Observer ω]

def ending (t : Telling β ω) : Ending β ω (ω × Control) :=
  (Observer.told t.view t.stopSeen t.position).on t.observer t.bus

def left (t : Telling β ω) : ω := t.ending.state

def control (t : Telling β ω) : Control :=
  match t.ending.outcome with
  | .ok (_, control) => control
  | .error _ => .leave

def Answered (t : Telling β ω) : Prop := t.ending.outcome = .ok (t.left, t.control)

/-- The bus behind some notifications that begin on `b`. -/
def busAfter (b : β) (ts : List (Telling β ω)) : β := ts.foldl (fun _ t => t.ending.bus) b

/-- The request to stop behind some notifications, of which the first is shown `stop`. -/
def stopAfter (stop : Bool) (ts : List (Telling β ω)) : Bool :=
  Control.applyAll (ts.map control) stop

/-- The notifications of `observers`, of which the first stands at `position` and is shown the request
`stop`. -/
def round (view : View) : (position : Nat) → (stop : Bool) → β → (observers : List ω) →
    List (Telling β ω)
  | _, _, _, [] => []
  | position, stop, b, o :: observers =>
    let t : Telling β ω := ⟨position, o, view, stop, b⟩
    t :: round view (position + 1) (t.control.apply stop) t.ending.bus observers

theorem answered_of_ok {t : Telling β ω} {a : ω × Control} (h : t.ending.outcome = .ok a) :
    t.Answered ∧ t.left = a.1 ∧ ∃ as, Serves t.bus as t.ending.bus ∧ WritesNothing as := by
  have reads : (Observer.told t.view t.stopSeen t.position).Ensures t.observer _ :=
    (Observer.notify t.view t.stopSeen t.observer).activity_ensures t.position id
  obtain ⟨⟨quiet, left⟩, answered⟩ := reads.on_ok h
  have left : t.left = a.1 := left
  refine ⟨?_, left, _, answered.serves quiet.2, quiet.1⟩
  rw [Answered, left, control, h]

theorem safe_of_answered {t : Telling β ω} {P : ω → Control → Prop} (ha : t.Answered)
    (h : (Observer.notify t.view t.stopSeen t.observer).Safe P) : P t.left t.control := by
  have safe : (Observer.told t.view t.stopSeen t.position).Ensures t.observer _ :=
    h.activity_ensures t.position id
  exact (safe.on_ok ha).1.1

theorem ending_of_answered {t : Telling β ω} (h : t.Answered) :
    t.ending = ⟨.ok (t.left, t.control), t.left, t.ending.bus, t.ending.notes⟩ := by
  rw [← h]
  rfl

variable {view : View} {position : Nat} {stop : Bool} {b : β} {observers : List ω}

theorem map_observer_round : (round view position stop b observers).map Telling.observer =
    observers := by
  induction observers generalizing position stop b with
  | nil => rfl
  | cons o observers ih => exact congrArg (o :: ·) ih

theorem view_of_mem_round {t : Telling β ω} (h : t ∈ round view position stop b observers) :
    t.view = view := by
  induction observers generalizing position stop b with
  | nil => cases h
  | cons o observers ih =>
    rcases List.mem_cons.1 h with rfl | later
    · rfl
    · exact ih later

structure Turn (b : β) (before : List (Telling β ω)) (t : Telling β ω) : Prop where
  position : t.position = before.length
  /-- The request to stop is shown as those before have left it. -/
  stopSeen : t.stopSeen = stopAfter false before
  bus : t.bus = busAfter b before

theorem turn_of_round {before after : List (Telling β ω)} {t : Telling β ω}
    (h : round view position stop b observers = before ++ t :: after) :
    t.position = position + before.length ∧ t.stopSeen = stopAfter stop before ∧
      t.bus = busAfter b before := by
  induction observers generalizing position stop b before with
  | nil => simp [round] at h
  | cons o observers ih =>
    rw [round] at h
    cases before with
    | nil =>
      obtain ⟨rfl, -⟩ := List.cons.inj h
      exact ⟨rfl, rfl, rfl⟩
    | cons first before =>
      obtain ⟨rfl, rest⟩ := List.cons.inj h
      obtain ⟨hp, hs, hb⟩ := ih rest
      refine ⟨?_, hs, hb⟩
      rw [hp, List.length_cons]
      omega

/-- Until an observer is told, the others have only read. -/
theorem served_of_round (ha : ∀ t ∈ round view position stop b observers, t.Answered)
    {t : Telling β ω} (h : t ∈ round view position stop b observers) :
    ∃ as, Serves b as t.bus ∧ WritesNothing as := by
  induction observers generalizing position stop b with
  | nil => cases h
  | cons o observers ih =>
    rcases List.mem_cons.1 h with rfl | later
    · exact ⟨[], .nil b, writesNothing_nil⟩
    · obtain ⟨-, -, as, served, quiet⟩ := answered_of_ok (ha _ List.mem_cons_self)
      obtain ⟨as', served', quiet'⟩ := ih (fun t' ht' => ha t' (List.mem_cons_of_mem _ ht')) later
      exact ⟨as ++ as', served.append served', by simp [quiet, quiet']⟩

end Telling

namespace Engine

variable {β ω : Type} [Bus β] [Observer ω] {view : View}

theorem tell_eq_ending (before rest : List ω) (stop : Bool) (o : ω) (e : Engine ω) (b : β) :
    (tell view before rest stop o).on e b =
      (Telling.mk before.length o view stop b).ending.mapState fun self =>
        { e with observers := before ++ self :: rest } := by
  show ((Observer.notify view stop o).activity before.length fun self =>
    { e with observers := before ++ self :: rest }).on b = _
  rw [Probe.activity_eq_mapState, Activity.on_mapState]
  rfl

theorem notifyFrom_eq_round {before rest : List ω} {stop : Bool} {e : Engine ω} {b : β}
    (he : e.observers = before ++ rest)
    (ha : ∀ t ∈ Telling.round view before.length stop b rest, t.Answered) :
    let ts := Telling.round view before.length stop b rest
    (notifyFrom view before rest stop).on e b =
      ⟨.ok (Telling.stopAfter stop ts), { e with observers := before ++ ts.map Telling.left },
        Telling.busAfter b ts, ts.flatMap fun t => t.ending.notes⟩ := by
  induction rest generalizing before stop e b with
  | nil =>
    have same : { e with observers := before ++ [] } = e := by rw [← he]
    show (pure stop : Micro (Engine ω) Bool).on e b = _
    simp only [Telling.round, Telling.busAfter, Micro.on_pure, List.map_nil, same, List.foldl_nil,
      List.flatMap_nil]
    rfl
  | cons o rest ih =>
    generalize ht : (Telling.mk before.length o view stop b : Telling β ω) = t
    have next : (before ++ [t.left]).length = before.length + 1 := by simp
    have round : Telling.round view before.length stop b (o :: rest) =
        t :: Telling.round view (before ++ [t.left]).length (t.control.apply stop) t.ending.bus rest := by
      rw [Telling.round, ht, next]
    rw [round] at ha ⊢
    have first : t.ending = _ := Telling.ending_of_answered (ha t List.mem_cons_self)
    have moved : before ++ t.left :: rest = (before ++ [t.left]) ++ rest := by simp
    have others := ih (e := { e with observers := before ++ t.left :: rest }) moved
      fun t' ht' => ha t' (List.mem_cons_of_mem t ht')
    rw [notifyFrom_cons, Micro.on_bind, tell_eq_ending, ht, first, Ending.mapState_mk,
      Ending.andThen_ok, others]
    simp only [Ending.after_mk, List.map_cons, List.flatMap_cons, List.append_assoc,
      List.singleton_append]
    rfl

theorem notify_eq_round {e : Engine ω} {b : β}
    (ha : ∀ t ∈ Telling.round view 0 false b e.observers, t.Answered) :
    let ts := Telling.round view 0 false b e.observers
    (notify view).on e b =
      ⟨.ok (), { e with observers := ts.map Telling.left, stop := e.stop || Telling.stopAfter false ts },
        Telling.busAfter b ts, ts.flatMap fun t => t.ending.notes⟩ := by
  intro ts
  have all : (notifyFrom view [] e.observers false).on e b =
      ⟨.ok (Telling.stopAfter false ts), { e with observers := ts.map Telling.left },
        Telling.busAfter b ts, ts.flatMap fun t => t.ending.notes⟩ :=
    notifyFrom_eq_round (List.nil_append e.observers).symm ha
  simp only [notify, Micro.on_bind, Micro.on_get, Ending.andThen_ok, Ending.after_nil, all]
  cases Telling.stopAfter false ts with
  | false => simp
  | true => simp

theorem answered_of_notifyFrom {before rest : List ω} {stop asked : Bool} {e : Engine ω} {b : β}
    (h : ((notifyFrom view before rest stop).on e b).outcome = .ok asked) :
    ∀ t ∈ Telling.round view before.length stop b rest, t.Answered := by
  induction rest generalizing before stop e b with
  | nil => exact fun t member => nomatch member
  | cons o rest ih =>
    rw [notifyFrom_cons, Micro.on_bind, tell_eq_ending] at h
    rw [Telling.round]
    generalize (Telling.mk before.length o view stop b : Telling β ω) = t at h ⊢
    cases ended : t.ending.outcome with
    | error why =>
      have cut := congrArg Ending.outcome (Ending.andThen_of_error
        (e := t.ending.mapState fun self => { e with observers := before ++ self :: rest })
        (f := fun a e' b' => (notifyFrom view (before ++ [a.1]) rest (a.2.apply stop)).on e' b') ended)
      rw [h] at cut
      cases cut
    | ok a =>
      have first := (Telling.answered_of_ok ended).1
      rw [Telling.ending_of_answered first, Ending.mapState_mk, Ending.andThen_ok,
        Ending.outcome_after] at h
      have next : (before ++ [t.left]).length = before.length + 1 := by simp
      have others := ih h
      rw [next] at others
      intro t' member
      rcases List.mem_cons.1 member with rfl | later
      · exact first
      · exact others t' later

theorem answered_of_notify {e : Engine ω} {b : β} (h : ((notify view).on e b).outcome = .ok ()) :
    ∀ t ∈ Telling.round view 0 false b e.observers, t.Answered := by
  simp only [notify, Micro.on_bind, Micro.on_get, Ending.andThen_ok, Ending.after_nil] at h
  cases told : ((notifyFrom view [] e.observers false).on e b).outcome with
  | error why =>
    rw [Ending.andThen_of_error told] at h
    cases h
  | ok asked => exact answered_of_notifyFrom told

end Engine

theorem Machine.tell_eq_round {β ω : Type} [Bus β] [Observer ω] {m : Machine β ω} {view : View}
    (h : (m.tell view).outcome = .ok ()) :
    let ts := Telling.round view 0 false m.instruct.bus m.observers
    (∀ t ∈ ts, t.Answered) ∧ m.tell view = ⟨.ok (),
      { m.instructed with
        observers := ts.map Telling.left
        stop := m.stop || Telling.stopAfter false ts },
      Telling.busAfter m.instruct.bus ts, ts.flatMap fun t => t.ending.notes⟩ := by
  have answered := Engine.answered_of_notify h
  exact ⟨answered, Engine.notify_eq_round (e := m.instructed) answered⟩

end Mos6502
