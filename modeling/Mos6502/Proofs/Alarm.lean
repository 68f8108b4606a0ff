import Mos6502.Proofs.Simulation

namespace Mos6502

/-- A bus or an observer, with the faults that it has raised. -/
structure Alarmed (α : Type) where
  source : α
  raised : List Fault := []

namespace Alarmed

variable {β : Type} [Bus β]

instance : Bus (Alarmed β) where
  read b addr :=
    match Bus.read b.source addr with
    | (.ok v, source) => (.ok v, { b with source })
    | (.error f, source) => (.error f, ⟨source, b.raised ++ [f]⟩)
  write b addr v :=
    match Bus.write b.source addr v with
    | (.ok (), source) => (.ok (), { b with source })
    | (.error f, source) => (.error f, ⟨source, b.raised ++ [f]⟩)
  peek b := Bus.peek b.source
  poll b :=
    match Bus.poll b.source with
    | (.ok line, source) => (.ok line, { b with source })
    | (.error f, source) => (.error f, ⟨source, b.raised ++ [f]⟩)

variable {b b' : Alarmed β} {addr : Addr} {v : Byte} {line : Bool} {f : Fault}

theorem raised_of_read (h : Bus.read b addr = (.ok v, b')) : b'.raised = b.raised := by
  simp only [Bus.read] at h
  split at h <;> cases h
  rfl

theorem raised_of_write (h : Bus.write b addr v = (.ok (), b')) : b'.raised = b.raised := by
  simp only [Bus.write] at h
  split at h <;> cases h
  rfl

theorem raised_of_poll (h : Bus.poll b = (.ok line, b')) : b'.raised = b.raised := by
  simp only [Bus.poll] at h
  split at h <;> cases h
  rfl

theorem raised_of_refusedRead (h : Bus.read b addr = (.error f, b')) :
    b'.raised = b.raised ++ [f] := by
  simp only [Bus.read] at h
  split at h <;> cases h
  rfl

theorem raised_of_refusedWrite (h : Bus.write b addr v = (.error f, b')) :
    b'.raised = b.raised ++ [f] := by
  simp only [Bus.write] at h
  split at h <;> cases h
  rfl

theorem raised_of_refusedPoll (h : Bus.poll b = (.error f, b')) :
    b'.raised = b.raised ++ [f] := by
  simp only [Bus.poll] at h
  split at h <;> cases h
  rfl

theorem raised_of_answers {es : List Event} (h : Answers b es b') : b'.raised = b.raised := by
  induction h with
  | nil => rfl
  | read hr _ ih => rw [ih, raised_of_read hr]
  | write hw _ ih => rw [ih, raised_of_write hw]
  | poll hp _ ih => rw [ih, raised_of_poll hp]
  | peek _ _ ih | note _ _ ih => exact ih

end Alarmed

namespace Probe

variable {ω σ τ α γ : Type}

def alarmed (raised : List Fault) : Probe ω → Probe (Alarmed ω)
  | .done self control => .done ⟨self, raised⟩ control
  | .fault self f => .fault ⟨self, raised ++ [f]⟩ f
  | .read self addr next => .read ⟨self, raised⟩ addr fun v => (next v).alarmed raised
  | .peek addr next => .peek addr fun v => (next v).alarmed raised
  | .print text next => .print text (next.alarmed raised)
  | .log line next => .log line (next.alarmed raised)
  | .keep s next => .keep s (next.alarmed raised)
  | .pause ms next => .pause ms (next.alarmed raised)

end Probe

instance {ω : Type} [Observer ω] : Observer (Alarmed ω) where
  notify view stop o := (Observer.notify view stop o.source).alarmed o.raised

namespace Activity

variable {σ τ α γ β : Type}

theorem mapState_mapState {υ : Type} (g : τ → υ) (f : σ → τ) : ∀ p : Activity σ α,
    (p.mapState f).mapState g = p.mapState fun s => g (f s)
  | .done _ _ | .abort _ _ => rfl
  | .read _ _ next => by simp only [mapState, fun v => mapState_mapState g f (next v)]
  | .write _ _ _ next => by simp only [mapState, mapState_mapState g f next]
  | .peek _ next => by simp only [mapState, fun v => mapState_mapState g f (next v)]
  | .poll _ next => by simp only [mapState, fun line => mapState_mapState g f (next line)]
  | .note _ next => by simp only [mapState, mapState_mapState g f next]

theorem mapState_andThen {g : σ → τ} {f : α → σ → Activity σ γ} {f' : α → τ → Activity τ γ}
    (h : ∀ a s, (f a s).mapState g = f' a (g s)) : ∀ p : Activity σ α,
    (p.andThen f).mapState g = (p.mapState g).andThen f'
  | .done s a => h a s
  | .abort _ _ => rfl
  | .read _ _ next => by simp only [andThen, mapState, fun v => mapState_andThen h (next v)]
  | .write _ _ _ next => by simp only [andThen, mapState, mapState_andThen h next]
  | .peek _ next => by simp only [andThen, mapState, fun v => mapState_andThen h (next v)]
  | .poll _ next => by simp only [andThen, mapState, fun line => mapState_andThen h (next line)]
  | .note _ next => by simp only [andThen, mapState, mapState_andThen h next]

theorem on_source [Bus β] (p : Activity σ α) (b : Alarmed β) :
    p.on b.source = (p.on b).mapBus Alarmed.source := by
  induction p generalizing b with
  | done | abort => rfl
  | read s addr next ih =>
    simp only [on, Bus.read]
    rcases Bus.read b.source addr with ⟨f | v, source⟩
    · rfl
    · exact ih v { b with source }
  | write s addr v next ih =>
    simp only [on, Bus.write]
    rcases Bus.write b.source addr v with ⟨f | _, source⟩
    · rfl
    · exact ih { b with source }
  | peek addr next ih => exact ih _ b
  | poll s next ih =>
    simp only [on, Bus.poll]
    rcases Bus.poll b.source with ⟨f | line, source⟩
    · rfl
    · exact ih line { b with source }
  | note n next ih =>
    simp only [on, ih b]
    rfl

end Activity

theorem Probe.activity_alarmed {ω σ τ γ : Type} (position : Nat) {put : Alarmed ω → σ} {put' : ω → τ}
    {g : σ → τ} {f : Alarmed ω × Control → σ → Activity σ γ} {f' : ω × Control → τ → Activity τ γ}
    (hput : ∀ o, g (put o) = put' o.source)
    (hf : ∀ o control s, (f (o, control) s).mapState g = f' (o.source, control) (g s)) (raised : List Fault)
    (p : Probe ω) : (((p.alarmed raised).activity position put).andThen f).mapState g =
      (p.activity position put').andThen f' := by
  induction p with
  | done self control =>
    simp only [alarmed, activity, Activity.andThen, hf, hput]
  | fault self x => simp only [alarmed, activity, Activity.andThen, Activity.mapState, hput]
  | read self addr next ih =>
    simp only [alarmed, activity, Activity.andThen, Activity.mapState, hput, ih]
  | peek addr next ih =>
    simp only [alarmed, activity, Activity.andThen, Activity.mapState, ih]
  | print _ _ ih | log _ _ ih | keep _ _ ih | pause _ _ ih =>
    simp only [alarmed, activity, Activity.andThen, Activity.mapState, ih]

namespace Engine

variable {ω : Type}

def raised (e : Engine (Alarmed ω)) : List Fault := e.observers.flatMap Alarmed.raised

def silenced (e : Engine (Alarmed ω)) : Engine ω :=
  { e with observers := e.observers.map Alarmed.source }

theorem onCpu_silenced {α : Type} (p : Micro Cpu α) (e : Engine (Alarmed ω)) :
    (onCpu p e).mapState silenced = onCpu p e.silenced :=
  Activity.mapState_mapState _ _ (p e.cpu)

variable [Observer ω]

theorem notifyFrom_silenced (view : View) (before rest : List (Alarmed ω)) (stop : Bool)
    (e : Engine (Alarmed ω)) : (notifyFrom view before rest stop e).mapState silenced =
      notifyFrom view (before.map Alarmed.source) (rest.map Alarmed.source) stop e.silenced := by
  induction rest generalizing before stop e with
  | nil => rfl
  | cons o rest ih =>
    rw [List.map_cons, notifyFrom_cons, notifyFrom_cons]
    show ((tell view before rest stop o e).andThen _).mapState silenced =
      (tell view _ _ stop o.source e.silenced).andThen _
    unfold tell
    rw [List.length_map]
    refine Probe.activity_alarmed before.length (fun self => ?_) (fun self control e => ?_) _ _
    · simp [silenced]
    · rw [ih, List.map_append]
      rfl

theorem notify_silenced (view : View) (e : Engine (Alarmed ω)) :
    (notify view e).mapState silenced = notify view e.silenced := by
  have asked : ∀ (stop : Bool) (e : Engine (Alarmed ω)),
      ((if stop then modify fun e => { e with stop := true } else pure () :
        Micro (Engine (Alarmed ω)) Unit) e).mapState silenced =
      (if stop then modify fun e => { e with stop := true } else pure () :
        Micro (Engine ω) Unit) e.silenced := by
    intro stop e
    cases stop <;> rfl
  refine (Activity.mapState_andThen asked (notifyFrom view [] e.observers false e)).trans ?_
  rw [notifyFrom_silenced]
  rfl

theorem step_silenced (e : Engine (Alarmed ω)) :
    (step e).mapState silenced = step e.silenced := by
  have told (view : View) (e : Engine (Alarmed ω)) :
      ((notify view >>= fun _ => onCpu Cpu.settle : Micro _ Unit) e).mapState silenced =
        (notify view >>= fun _ => onCpu Cpu.settle : Micro _ Unit) e.silenced := by
    refine (Activity.mapState_andThen (fun _ => onCpu_silenced Cpu.settle) _).trans ?_
    rw [notify_silenced]
    rfl
  refine (Activity.mapState_andThen told _).trans ?_
  rw [onCpu_silenced]
  rfl

end Engine

namespace Machine

section Silence

variable {β ω : Type}

/-- The same machine, with an alarm on the bus and on every observer. -/
def alarmed (m : Machine β ω) : Machine (Alarmed β) (Alarmed ω) :=
  { m with bus := ⟨m.bus, []⟩, observers := m.observers.map fun o => ⟨o, []⟩ }

def silenced (m : Machine (Alarmed β) (Alarmed ω)) : Machine β ω :=
  { m with toEngine := m.toEngine.silenced, bus := m.bus.source }

def raised (m : Machine (Alarmed β) (Alarmed ω)) : List Fault :=
  m.bus.raised ++ m.toEngine.raised

theorem silenced_alarmed (m : Machine β ω) : m.alarmed.silenced = m := by
  have observers : (m.observers.map fun o => (⟨o, []⟩ : Alarmed ω)).map Alarmed.source =
      m.observers := by
    rw [List.map_map]
    exact List.map_id _
  simp only [silenced, Engine.silenced, alarmed, observers]

theorem raised_alarmed (m : Machine β ω) : m.alarmed.raised = [] := by
  simp [raised, Engine.raised, alarmed]

theorem silenced_log (m : Machine (Alarmed β) (Alarmed ω)) (line : LogLine) :
    (m.log line).silenced = m.silenced.log line := by
  have kept : m.silenced.logging = m.logging := rfl
  unfold log note
  rw [kept]
  split <;> rfl

theorem begin_silenced (m : Machine (Alarmed β) (Alarmed ω)) :
    m.begin.silenced = m.silenced.begin := by
  unfold begin
  rw [silenced_log]
  simp only [silenced, Engine.silenced, List.length_map]

theorem raised_of_same {m m' : Machine (Alarmed β) (Alarmed ω)} (h : Same m m') :
    m'.raised = m.raised := by
  unfold raised
  rw [h.bus, h.engine]

variable [Bus β]

theorem perform_silenced {α : Type} {p : Micro (Engine (Alarmed ω)) α} {p' : Micro (Engine ω) α}
    (h : ∀ e, (p e).mapState Engine.silenced = p' e.silenced)
    (m : Machine (Alarmed β) (Alarmed ω)) :
    (m.perform p).1 = (m.silenced.perform p').1 ∧
      (m.perform p).2.silenced = (m.silenced.perform p').2 := by
  have run : p'.on m.toEngine.silenced m.bus.source =
      ((p.on m.toEngine m.bus).mapState Engine.silenced).mapBus Alarmed.source := by
    show (p' m.toEngine.silenced).on _ = _
    rw [← h, Activity.on_source, Activity.on_mapState]
    rfl
  have performed : m.silenced.perform p' =
      let e := p'.on m.toEngine.silenced m.bus.source
      (e.outcome, ⟨e.state, e.bus, e.notes.foldl (fun j n => if n.kept m.logging then j.push n else j)
        m.journal, m.logging⟩) := rfl
  rw [performed, run]
  exact ⟨rfl, rfl⟩

end Silence

variable {β ω : Type} [Bus β] [Observer ω]

/-- A machine with alarms runs as it does without. -/
theorem simulation_silenced :
    Simulation fun (m : Machine β ω) (m' : Machine (Alarmed β) (Alarmed ω)) => m'.silenced = m where
  cpu h := congrArg (fun m => m.cpu) h
  stop h := congrArg (fun m => m.stop) h
  log h line := by rw [silenced_log, h]
  step {m m'} h := by
    rw [← h]
    exact perform_silenced Engine.step_silenced m'

end Machine

end Mos6502
