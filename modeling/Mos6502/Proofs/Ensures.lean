import Mos6502.Proofs.Exchange

namespace Mos6502

/-- What cuts work short: its own decision, or an access or a poll that the bus refuses. -/
inductive Cut where
  | abort (why : Abort)
  | refusedRead (addr : Addr)
  | refusedWrite (addr : Addr) (v : Byte)
  | refusedPoll

/-- Work is cut short by a fault, its own or the bus's, and not by an error of the processor. -/
def Cut.IsFault : Cut → Prop
  | .abort (.error _) => False
  | _ => True

def Cut.AtAccess : Cut → Prop
  | .refusedRead _ | .refusedWrite _ _ => True
  | .abort _ | .refusedPoll => False

theorem Cut.AtAccess.ne_abort {why : Cut} (h : why.AtAccess) (a : Abort) : why ≠ .abort a := by
  rintro rfl
  exact h

theorem Cut.isFault_of_ne_abort {why : Cut} (h : ∀ a, why ≠ .abort a) : why.IsFault := by
  cases why with
  | abort a => exact absurd rfl (h a)
  | refusedRead | refusedWrite | refusedPoll => trivial

theorem Cut.isFault_abort {why : Abort} : (Cut.abort why).IsFault ↔ ∃ f, why = .fault f := by
  cases why <;> simp [IsFault]

/-- How work ends, as far as the bus has no part in it. -/
inductive Finish (σ α : Type) where
  | done (state : σ) (value : α)
  | cut (state : σ) (why : Cut)

namespace Finish

variable {σ τ α β : Type}

def mapState (f : σ → τ) : Finish σ α → Finish τ α
  | .done s a => .done (f s) a
  | .cut s why => .cut (f s) why

/-- What is left of `o` for a program that goes on from a value: `Q`, or for work cut short `R`. -/
def Then (Q : σ → α → Prop) (R : σ → Cut → Prop) : Finish σ α → Prop
  | .done s a => Q s a
  | .cut s why => R s why

/-- The bus `b` brings about the end `o`, with outcome, state and bus as given. -/
inductive Ended [Bus β] (b : β) : Finish σ α → Except Abort α → σ → β → Prop
  | done (s : σ) (a : α) : Ended b (.done s a) (.ok a) s b
  | abort (s : σ) (why : Abort) : Ended b (.cut s (.abort why)) (.error why) s b
  | refusedRead (s : σ) {addr : Addr} {f : Fault} {b' : β} (h : Bus.read b addr = (.error f, b')) :
      Ended b (.cut s (.refusedRead addr)) (.error (.fault f)) s b'
  | refusedWrite (s : σ) {addr : Addr} {v : Byte} {f : Fault} {b' : β}
      (h : Bus.write b addr v = (.error f, b')) :
      Ended b (.cut s (.refusedWrite addr v)) (.error (.fault f)) s b'
  | refusedPoll (s : σ) {f : Fault} {b' : β} (h : Bus.poll b = (.error f, b')) :
      Ended b (.cut s .refusedPoll) (.error (.fault f)) s b'

@[simp] theorem mapState_done (f : σ → τ) (s : σ) (a : α) :
    (Finish.done s a).mapState f = .done (f s) a := rfl

@[simp] theorem mapState_cut (f : σ → τ) (s : σ) (why : Cut) :
    (Finish.cut s why : Finish σ α).mapState f = .cut (f s) why := rfl

@[simp] theorem then_done (Q : σ → α → Prop) (R : σ → Cut → Prop) (s : σ) (a : α) :
    (Finish.done s a).Then Q R ↔ Q s a := Iff.rfl

@[simp] theorem then_cut (Q : σ → α → Prop) (R : σ → Cut → Prop) (s : σ) (why : Cut) :
    (Finish.cut s why).Then Q R ↔ R s why := Iff.rfl

end Finish

abbrev Post (σ α : Type) := List Event → Finish σ α → Prop

namespace Activity

variable {σ τ α γ β : Type}

/-- However a bus answers `p`, the events and the end satisfy `Q`. -/
def Ensures : Activity σ α → Post σ α → Prop
  | .done s a, Q => Q [] (.done s a)
  | .abort s why, Q => Q [] (.cut s (.abort why))
  | .read s addr next, Q =>
    Q [] (.cut s (.refusedRead addr)) ∧
      ∀ v, (next v).Ensures fun es => Q (.access ⟨.read, addr, v⟩ :: es)
  | .write s addr v next, Q =>
    Q [] (.cut s (.refusedWrite addr v)) ∧
      next.Ensures fun es => Q (.access ⟨.write, addr, v⟩ :: es)
  | .peek addr next, Q => ∀ v, (next v).Ensures fun es => Q (.peek addr v :: es)
  | .poll s next, Q =>
    Q [] (.cut s .refusedPoll) ∧ ∀ line, (next line).Ensures fun es => Q (.poll line :: es)
  | .note n next, Q => next.Ensures fun es => Q (.note n :: es)

/-- The events of the run on `b`, up to one that is refused. -/
def events [Bus β] : Activity σ α → β → List Event
  | .done _ _, _ | .abort _ _, _ => []
  | .read _ addr next, b =>
    match Bus.read b addr with
    | (.ok v, b') => .access ⟨.read, addr, v⟩ :: (next v).events b'
    | (.error _, _) => []
  | .write _ addr v next, b =>
    match Bus.write b addr v with
    | (.ok (), b') => .access ⟨.write, addr, v⟩ :: next.events b'
    | (.error _, _) => []
  | .peek addr next, b => .peek addr (Bus.peek b addr) :: (next (Bus.peek b addr)).events b
  | .poll _ next, b =>
    match Bus.poll b with
    | (.ok line, b') => .poll line :: (next line).events b'
    | (.error _, _) => []
  | .note n next, b => .note n :: next.events b

theorem Ensures.mono {p : Activity σ α} {Q R : Post σ α} (h : p.Ensures Q)
    (hQR : ∀ es o, Q es o → R es o) : p.Ensures R := by
  induction p generalizing Q R with
  | done _ _ | abort _ _ => exact hQR _ _ h
  | read _ _ _ ih => exact ⟨hQR _ _ h.1, fun v => ih v (h.2 v) fun _ => hQR _⟩
  | write _ _ _ _ ih => exact ⟨hQR _ _ h.1, ih h.2 fun _ => hQR _⟩
  | peek _ _ ih => exact fun v => ih v (h v) fun _ => hQR _
  | poll _ _ ih => exact ⟨hQR _ _ h.1, fun line => ih line (h.2 line) fun _ => hQR _⟩
  | note _ _ ih => exact ih h fun _ => hQR _

theorem ensures_andThen (f : α → σ → Activity σ γ) : ∀ (p : Activity σ α) (Q : Post σ γ),
    (p.andThen f).Ensures Q ↔ p.Ensures fun es o =>
      o.Then (fun s a => (f a s).Ensures fun fs => Q (es ++ fs)) fun s why => Q es (.cut s why)
  | .done _ _, _ | .abort _ _, _ => Iff.rfl
  | .read _ _ next, Q => by simp [andThen, Ensures, ensures_andThen f]
  | .write _ _ _ next, Q => by simp [andThen, Ensures, ensures_andThen f]
  | .peek _ next, Q => by simp [andThen, Ensures, ensures_andThen f]
  | .poll _ next, Q => by simp [andThen, Ensures, ensures_andThen f]
  | .note _ next, Q => by simp [andThen, Ensures, ensures_andThen f]

theorem ensures_mapState (f : σ → τ) : ∀ (p : Activity σ α) (Q : Post τ α),
    (p.mapState f).Ensures Q ↔ p.Ensures fun es o => Q es (o.mapState f)
  | .done _ _, _ | .abort _ _, _ => Iff.rfl
  | .read _ _ next, Q => by simp [mapState, Ensures, ensures_mapState f]
  | .write _ _ _ next, Q => by simp [mapState, Ensures, ensures_mapState f]
  | .peek _ next, Q => by simp [mapState, Ensures, ensures_mapState f]
  | .poll _ next, Q => by simp [mapState, Ensures, ensures_mapState f]
  | .note _ next, Q => by simp [mapState, Ensures, ensures_mapState f]

/-- A run on a bus is one of those that `Ensures` speaks of. -/
theorem Ensures.on [Bus β] {p : Activity σ α} {Q : Post σ α} (h : p.Ensures Q) (b : β) :
    ∃ o b', Q (p.events b) o ∧ Answers b (p.events b) b' ∧
      Finish.Ended b' o (p.on b).outcome (p.on b).state (p.on b).bus ∧
      (p.on b).notes = notes (p.events b) := by
  -- by induction on the tree: each answer of the bus picks one of the branches that `h` covers
  induction p generalizing Q b with
  | done s a => exact ⟨_, b, h, .nil b, .done s a, rfl⟩
  | abort s why => exact ⟨_, b, h, .nil b, .abort s why, rfl⟩
  | read s addr next ih =>
    simp only [events, Activity.on]
    rcases hr : Bus.read b addr with ⟨f | v, b₁⟩
    · exact ⟨_, b, h.1, .nil b, .refusedRead s hr, rfl⟩
    · obtain ⟨o, b', hQ, ha, he, hn⟩ := ih v (h.2 v) b₁
      exact ⟨o, b', hQ, .read hr ha, he, hn⟩
  | write s addr v next ih =>
    simp only [events, Activity.on]
    rcases hw : Bus.write b addr v with ⟨f | _, b₁⟩
    · exact ⟨_, b, h.1, .nil b, .refusedWrite s hw, rfl⟩
    · obtain ⟨o, b', hQ, ha, he, hn⟩ := ih h.2 b₁
      exact ⟨o, b', hQ, .write hw ha, he, hn⟩
  | peek addr next ih =>
    obtain ⟨o, b', hQ, ha, he, hn⟩ := ih _ (h (Bus.peek b addr)) b
    exact ⟨o, b', hQ, .peek addr ha, he, hn⟩
  | poll s next ih =>
    simp only [events, Activity.on]
    rcases hp : Bus.poll b with ⟨f | line, b₁⟩
    · exact ⟨_, b, h.1, .nil b, .refusedPoll s hp, rfl⟩
    · obtain ⟨o, b', hQ, ha, he, hn⟩ := ih line (h.2 line) b₁
      exact ⟨o, b', hQ, .poll hp ha, he, hn⟩
  | note n next ih =>
    obtain ⟨o, b', hQ, ha, he, hn⟩ := ih h b
    exact ⟨o, b', hQ, .note n ha, he, congrArg (n :: ·) hn⟩

end Activity

namespace Micro

variable {σ τ α γ β : Type}

def Ensures (p : Micro σ α) (s : σ) (Q : Post σ α) : Prop := (p s).Ensures Q

def events [Bus β] (p : Micro σ α) (s : σ) (b : β) : List Event := (p s).events b

theorem Ensures.mono {p : Micro σ α} {s : σ} {Q R : Post σ α} (h : p.Ensures s Q)
    (hQR : ∀ es o, Q es o → R es o) : p.Ensures s R :=
  Activity.Ensures.mono h hQR

theorem Ensures.on [Bus β] {p : Micro σ α} {s : σ} {Q : Post σ α} (h : p.Ensures s Q) (b : β) :
    ∃ o b', Q (p.events s b) o ∧ Answers b (p.events s b) b' ∧
      Finish.Ended b' o (p.on s b).outcome (p.on s b).state (p.on s b).bus ∧
      (p.on s b).notes = notes (p.events s b) :=
  Activity.Ensures.on h b

section Ends

variable [Bus β] {p : Micro σ α} {s : σ} {Q : Post σ α} {b : β}

theorem Ensures.on_ok (h : p.Ensures s Q) {a : α} (ho : (p.on s b).outcome = .ok a) :
    Q (p.events s b) (.done (p.on s b).state a) ∧ Answers b (p.events s b) (p.on s b).bus := by
  obtain ⟨o, b', hQ, ha, he, -⟩ := h.on b
  rw [ho] at he
  cases he
  exact ⟨hQ, ha⟩

theorem Ensures.on_error (h : p.Ensures s Q) {e : ExecError}
    (ho : (p.on s b).outcome = .error (.error e)) :
    Q (p.events s b) (.cut (p.on s b).state (.abort (.error e))) ∧
      Answers b (p.events s b) (p.on s b).bus := by
  obtain ⟨o, b', hQ, ha, he, -⟩ := h.on b
  rw [ho] at he
  cases he
  exact ⟨hQ, ha⟩

theorem Ensures.on_abort (h : p.Ensures s Q) (hf : Bus.NeverFaults b) {why : Abort}
    (ho : (p.on s b).outcome = .error why) :
    Q (p.events s b) (.cut (p.on s b).state (.abort why)) ∧
      Answers b (p.events s b) (p.on s b).bus := by
  obtain ⟨o, b', hQ, ha, he, -⟩ := h.on b
  obtain ⟨reads, writes, polls⟩ := hf ha
  rw [ho] at he
  generalize p.events s b = es at hQ ha ⊢
  generalize (p.on s b).state = s' at he ⊢
  generalize (p.on s b).bus = b₁ at he ⊢
  cases he with
  | abort => exact ⟨hQ, ha⟩
  | refusedRead _ hr =>
    obtain ⟨v, b'', hok⟩ := reads _
    rw [hok] at hr
    cases hr
  | refusedWrite _ hw =>
    obtain ⟨b'', hok⟩ := writes _ _
    rw [hok] at hw
    cases hw
  | refusedPoll _ hp =>
    obtain ⟨line, b'', hok⟩ := polls
    rw [hok] at hp
    cases hp

theorem Ensures.on_fault (h : p.Ensures s Q) (hQ : ∀ es s' why, Q es (.cut s' why) → why.IsFault)
    {why : Abort} (ho : (p.on s b).outcome = .error why) : ∃ f, why = .fault f := by
  obtain ⟨o, b', hq, -, he, -⟩ := h.on b
  rw [ho] at he
  cases he with
  | abort _ _ => exact Cut.isFault_abort.1 (hQ _ _ _ hq)
  | refusedRead | refusedWrite | refusedPoll => exact ⟨_, rfl⟩

end Ends

section Rules

variable (s : σ) (Q : Post σ α)

@[simp] theorem ensures_pure (a : α) :
    (pure a : Micro σ α).Ensures s Q ↔ Q [] (.done s a) := Iff.rfl

@[simp] theorem ensures_bind (p : Micro σ γ) (f : γ → Micro σ α) :
    (p >>= f).Ensures s Q ↔ p.Ensures s fun es o =>
      o.Then (fun s' a => (f a).Ensures s' fun fs => Q (es ++ fs))
        fun s' why => Q es (.cut s' why) :=
  Activity.ensures_andThen f (p s) Q

@[simp] theorem ensures_map (f : γ → α) (p : Micro σ γ) :
    (f <$> p).Ensures s Q ↔ p.Ensures s fun es o =>
      o.Then (fun s' a => Q es (.done s' (f a))) fun s' why => Q es (.cut s' why) := by
  rw [map_eq_pure_bind, ensures_bind]
  simp only [ensures_pure, List.append_nil]

@[simp] theorem ensures_ite (p : Prop) [Decidable p] (x y : Micro σ α) :
    (if p then x else y).Ensures s Q ↔ if p then x.Ensures s Q else y.Ensures s Q := by
  split <;> rfl

@[simp] theorem ensures_get (Q : Post σ σ) : (get : Micro σ σ).Ensures s Q ↔ Q [] (.done s s) :=
  Iff.rfl

@[simp] theorem ensures_modify (f : σ → σ) (Q : Post σ PUnit) :
    (modify f : Micro σ PUnit).Ensures s Q ↔ Q [] (.done (f s) ⟨⟩) := Iff.rfl

@[simp] theorem ensures_fail (e : ExecError) :
    (fail e : Micro σ α).Ensures s Q ↔ Q [] (.cut s (.abort (.error e))) := Iff.rfl

@[simp] theorem ensures_read (addr : Addr) (Q : Post σ Byte) :
    (read addr).Ensures s Q ↔
      Q [] (.cut s (.refusedRead addr)) ∧ ∀ v, Q [.access ⟨.read, addr, v⟩] (.done s v) := Iff.rfl

@[simp] theorem ensures_write (addr : Addr) (v : Byte) (Q : Post σ Unit) :
    (write addr v).Ensures s Q ↔
      Q [] (.cut s (.refusedWrite addr v)) ∧ Q [.access ⟨.write, addr, v⟩] (.done s ()) := Iff.rfl

@[simp] theorem ensures_readWord (addr : Addr) (Q : Post σ Addr) :
    (readWord addr).Ensures s Q ↔
      Q [] (.cut s (.refusedRead addr)) ∧ ∀ lo,
        Q [.access ⟨.read, addr, lo⟩] (.cut s (.refusedRead (addr + 1))) ∧ ∀ hi,
          Q [.access ⟨.read, addr, lo⟩, .access ⟨.read, addr + 1, hi⟩] (.done s (word lo hi)) :=
  Iff.rfl

@[simp] theorem ensures_poll (Q : Post σ Bool) :
    poll.Ensures s Q ↔ Q [] (.cut s .refusedPoll) ∧ ∀ line, Q [.poll line] (.done s line) := Iff.rfl

@[simp] theorem ensures_log (line : LogLine) (Q : Post σ Unit) :
    (log line).Ensures s Q ↔ Q [.note (.log line)] (.done s ()) := Iff.rfl

@[simp] theorem ensures_within (get : τ → σ) (put : σ → τ → τ) (p : Micro σ α) (t : τ)
    (Q : Post τ α) :
    (within get put p).Ensures t Q ↔
      p.Ensures (get t) fun es o => Q es (o.mapState fun s => put s t) :=
  Activity.ensures_mapState _ (p (get t)) Q

end Rules

end Micro

end Mos6502
