import Mos6502.Micro

namespace Mos6502

namespace Ending

variable {σ τ α γ β : Type}

def after (notes : List Note) (e : Ending β σ α) : Ending β σ α :=
  { e with notes := notes ++ e.notes }

/-- Goes on from a value; an end that was cut short stays. -/
def andThen (e : Ending β σ α) (f : α → σ → β → Ending β σ γ) : Ending β σ γ :=
  match e.outcome with
  | .ok a => (f a e.state e.bus).after e.notes
  | .error why => ⟨.error why, e.state, e.bus, e.notes⟩

def mapState (f : σ → τ) (e : Ending β σ α) : Ending β τ α :=
  ⟨e.outcome, f e.state, e.bus, e.notes⟩

def mapBus {β' : Type} (f : β → β') (e : Ending β σ α) : Ending β' σ α :=
  ⟨e.outcome, e.state, f e.bus, e.notes⟩

@[simp] theorem after_mk (ns ms : List Note) (r : Except Abort α) (s : σ) (b : β) :
    (Ending.mk r s b ms).after ns = ⟨r, s, b, ns ++ ms⟩ := rfl

@[simp] theorem after_nil (e : Ending β σ α) : e.after [] = e := rfl

@[simp] theorem after_after (ns ms : List Note) (e : Ending β σ α) :
    (e.after ms).after ns = e.after (ns ++ ms) := by simp [after]

@[simp] theorem outcome_after (ns : List Note) (e : Ending β σ α) :
    (e.after ns).outcome = e.outcome := rfl

@[simp] theorem state_after (ns : List Note) (e : Ending β σ α) : (e.after ns).state = e.state := rfl

@[simp] theorem bus_after (ns : List Note) (e : Ending β σ α) : (e.after ns).bus = e.bus := rfl

@[simp] theorem andThen_ok (a : α) (s : σ) (b : β) (ns : List Note) (f : α → σ → β → Ending β σ γ) :
    (Ending.mk (.ok a) s b ns).andThen f = (f a s b).after ns := rfl

@[simp] theorem andThen_error (why : Abort) (s : σ) (b : β) (ns : List Note)
    (f : α → σ → β → Ending β σ γ) :
    (Ending.mk (.error why) s b ns).andThen f = ⟨.error why, s, b, ns⟩ := rfl

@[simp] theorem mapState_mk (f : σ → τ) (r : Except Abort α) (s : σ) (b : β) (ns : List Note) :
    (Ending.mk r s b ns).mapState f = ⟨r, f s, b, ns⟩ := rfl

end Ending

namespace Activity

variable {σ τ α γ β : Type}

theorem andThen_done : ∀ p : Activity σ α, p.andThen (fun a s => .done s a) = p
  | .done _ _ | .abort _ _ => rfl
  | .read _ _ next => by simp [andThen, fun v => andThen_done (next v)]
  | .write _ _ _ next => by simp [andThen, andThen_done next]
  | .peek _ next => by simp [andThen, fun v => andThen_done (next v)]
  | .poll _ next => by simp [andThen, fun line => andThen_done (next line)]
  | .note _ next => by simp [andThen, andThen_done next]

theorem andThen_assoc {δ : Type} (f : α → σ → Activity σ γ) (g : γ → σ → Activity σ δ) :
    ∀ p : Activity σ α, (p.andThen f).andThen g = p.andThen fun a s => (f a s).andThen g
  | .done _ _ | .abort _ _ => rfl
  | .read _ _ next => by simp [andThen, fun v => andThen_assoc f g (next v)]
  | .write _ _ _ next => by simp [andThen, andThen_assoc f g next]
  | .peek _ next => by simp [andThen, fun v => andThen_assoc f g (next v)]
  | .poll _ next => by simp [andThen, fun line => andThen_assoc f g (next line)]
  | .note _ next => by simp [andThen, andThen_assoc f g next]

variable [Bus β]

theorem on_andThen (f : α → σ → Activity σ γ) :
    ∀ (p : Activity σ α) (b : β), (p.andThen f).on b = (p.on b).andThen fun a s b' => (f a s).on b'
  | .done _ _, _ => rfl
  | .abort _ _, _ => rfl
  | .read _ addr next, b => by
    simp only [andThen, on]
    rcases Bus.read b addr with ⟨_ | v, b'⟩
    · rfl
    · exact on_andThen f (next v) b'
  | .write _ addr v next, b => by
    simp only [andThen, on]
    rcases Bus.write b addr v with ⟨_ | _, b'⟩
    · rfl
    · exact on_andThen f next b'
  | .peek addr next, b => on_andThen f (next (Bus.peek b addr)) b
  | .poll _ next, b => by
    simp only [andThen, on]
    rcases Bus.poll b with ⟨_ | line, b'⟩
    · rfl
    · exact on_andThen f (next line) b'
  | .note n next, b => by
    simp only [andThen, on, on_andThen f next b]
    rcases next.on b with ⟨_ | _, _, _, _⟩ <;> rfl

theorem on_mapState (f : σ → τ) :
    ∀ (p : Activity σ α) (b : β), (p.mapState f).on b = (p.on b).mapState f
  | .done _ _, _ => rfl
  | .abort _ _, _ => rfl
  | .read _ addr next, b => by
    simp only [mapState, on]
    rcases Bus.read b addr with ⟨_ | v, b'⟩
    · rfl
    · exact on_mapState f (next v) b'
  | .write _ addr v next, b => by
    simp only [mapState, on]
    rcases Bus.write b addr v with ⟨_ | _, b'⟩
    · rfl
    · exact on_mapState f next b'
  | .peek addr next, b => on_mapState f (next (Bus.peek b addr)) b
  | .poll _ next, b => by
    simp only [mapState, on]
    rcases Bus.poll b with ⟨_ | line, b'⟩
    · rfl
    · exact on_mapState f (next line) b'
  | .note n next, b => by
    simp only [mapState, on, on_mapState f next b]
    rfl

end Activity

namespace Micro

variable {σ τ α γ β : Type}

instance : LawfulMonad (Micro σ) :=
  LawfulMonad.mk' (Micro σ)
    (fun p => funext fun s => (p s).andThen_done)
    (fun _ _ => rfl)
    (fun p f g => funext fun s => (p s).andThen_assoc f g)

variable [Bus β] (s : σ) (b : β)

@[simp] theorem on_pure (a : α) : (pure a : Micro σ α).on s b = ⟨.ok a, s, b, []⟩ := rfl

@[simp] theorem on_bind (p : Micro σ α) (f : α → Micro σ γ) :
    (p >>= f).on s b = (p.on s b).andThen fun a s' b' => (f a).on s' b' :=
  Activity.on_andThen f (p s) b

@[simp] theorem on_map (f : α → γ) (p : Micro σ α) :
    (f <$> p).on s b = (p.on s b).andThen fun a s' b' => ⟨.ok (f a), s', b', []⟩ := by
  rw [map_eq_pure_bind, on_bind]
  rfl

@[simp] theorem on_ite (p : Prop) [Decidable p] (x y : Micro σ α) :
    (if p then x else y).on s b = if p then x.on s b else y.on s b := by
  split <;> rfl

@[simp] theorem on_get : (get : Micro σ σ).on s b = ⟨.ok s, s, b, []⟩ := rfl

@[simp] theorem on_set (s' : σ) : (set s' : Micro σ PUnit).on s b = ⟨.ok ⟨⟩, s', b, []⟩ := rfl

@[simp] theorem on_modify (f : σ → σ) :
    (modify f : Micro σ PUnit).on s b = ⟨.ok ⟨⟩, f s, b, []⟩ := rfl

@[simp] theorem on_fail (e : ExecError) :
    (fail e : Micro σ α).on s b = ⟨.error (.error e), s, b, []⟩ := rfl

theorem on_read (addr : Addr) :
    (read addr : Micro σ Byte).on s b =
      ⟨(Bus.read b addr).1.mapError .fault, s, (Bus.read b addr).2, []⟩ := by
  simp only [on, read, Activity.on]
  rcases Bus.read b addr with ⟨_ | _, _⟩ <;> rfl

theorem on_poll : (poll : Micro σ Bool).on s b =
    ⟨(Bus.poll b).1.mapError .fault, s, (Bus.poll b).2, []⟩ := by
  simp only [on, poll, Activity.on]
  rcases Bus.poll b with ⟨_ | _, _⟩ <;> rfl

@[simp] theorem on_note (n : Note) : (note n : Micro σ Unit).on s b = ⟨.ok (), s, b, [n]⟩ := rfl

@[simp] theorem on_log (line : LogLine) :
    (log line : Micro σ Unit).on s b = ⟨.ok (), s, b, [.log line]⟩ := rfl

@[simp] theorem on_within (get : τ → σ) (put : σ → τ → τ) (p : Micro σ α) (t : τ) :
    (within get put p).on t b = (p.on (get t) b).mapState fun s => put s t :=
  Activity.on_mapState _ (p (get t)) b

end Micro

end Mos6502
