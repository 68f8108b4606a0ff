import Mos6502.Bus.Recorded
import Mos6502.Micro.Lemmas

namespace Mos6502

/-- One thing a microprogram does besides changing its state, with the answer it gets. -/
inductive Event where
  | access (a : Access)
  | peek (addr : Addr) (v : Byte)
  | poll (line : Bool)
  | note (n : Note)
  deriving DecidableEq

def Event.access? : Event → Option Access
  | .access a => some a
  | _ => none

def Event.note? : Event → Option Note
  | .note n => some n
  | _ => none

def accesses (es : List Event) : List Access := es.filterMap Event.access?

def notes (es : List Event) : List Note := es.filterMap Event.note?

def Unpolled (es : List Event) : Prop := ∀ line, .poll line ∉ es

def OnlyReads (es : List Event) : Prop := ∀ e ∈ es, ∃ addr v, e = .access ⟨.read, addr, v⟩

section Lists

variable (es fs : List Event) (a : Access) (n : Note) (as : List Access)

@[simp] theorem accesses_nil : accesses [] = [] := rfl

@[simp] theorem accesses_access : accesses (.access a :: es) = a :: accesses es := rfl

@[simp] theorem accesses_peek (addr : Addr) (v : Byte) :
    accesses (.peek addr v :: es) = accesses es := rfl

@[simp] theorem accesses_poll (line : Bool) : accesses (.poll line :: es) = accesses es := rfl

@[simp] theorem accesses_note : accesses (.note n :: es) = accesses es := rfl

@[simp] theorem accesses_append : accesses (es ++ fs) = accesses es ++ accesses fs :=
  List.filterMap_append

@[simp] theorem accesses_map_access : accesses (as.map .access) = as := by
  induction as with
  | nil => rfl
  | cons a as ih => rw [List.map_cons, accesses_access, ih]

@[simp] theorem accesses_map_note (ns : List Note) : accesses (ns.map .note) = [] := by
  induction ns with
  | nil => rfl
  | cons n ns ih => rw [List.map_cons, accesses_note, ih]

@[simp] theorem notes_access : notes (.access a :: es) = notes es := rfl

@[simp] theorem notes_append : notes (es ++ fs) = notes es ++ notes fs := List.filterMap_append

@[simp] theorem notes_map_access : notes (as.map .access) = [] := by
  induction as with
  | nil => rfl
  | cons a as ih => rw [List.map_cons, notes_access, ih]

@[simp] theorem unpolled_nil : Unpolled [] := by simp [Unpolled]

@[simp] theorem unpolled_access : Unpolled (.access a :: es) ↔ Unpolled es := by simp [Unpolled]

@[simp] theorem unpolled_peek (addr : Addr) (v : Byte) :
    Unpolled (.peek addr v :: es) ↔ Unpolled es := by simp [Unpolled]

@[simp] theorem not_unpolled_poll (line : Bool) : ¬ Unpolled (.poll line :: es) :=
  fun h => h line List.mem_cons_self

@[simp] theorem unpolled_note : Unpolled (.note n :: es) ↔ Unpolled es := by simp [Unpolled]

@[simp] theorem unpolled_append : Unpolled (es ++ fs) ↔ Unpolled es ∧ Unpolled fs := by
  simp [Unpolled, forall_and]

@[simp] theorem unpolled_map_access : Unpolled (as.map .access) := by simp [Unpolled]

@[simp] theorem onlyReads_nil : OnlyReads [] := by simp [OnlyReads]

@[simp] theorem onlyReads_read (addr : Addr) (v : Byte) :
    OnlyReads (.access ⟨.read, addr, v⟩ :: es) ↔ OnlyReads es := by simp [OnlyReads]

end Lists

theorem OnlyReads.eq_map {es : List Event} (h : OnlyReads es) : es = (accesses es).map .access := by
  induction es with
  | nil => rfl
  | cons e es ih =>
    obtain ⟨addr, v, rfl⟩ := h e List.mem_cons_self
    rw [accesses_access, List.map_cons, ← ih ((onlyReads_read ..).1 h)]

theorem OnlyReads.unpolled {es : List Event} (h : OnlyReads es) : Unpolled es := by
  rw [h.eq_map]
  exact unpolled_map_access _

theorem OnlyReads.notes {es : List Event} (h : OnlyReads es) : notes es = [] := by
  rw [h.eq_map, notes_map_access]

/-- `b` answers the events one after the other and becomes `b'`. -/
inductive Answers {β : Type} [Bus β] : β → List Event → β → Prop
  | nil (b : β) : Answers b [] b
  | read {b b' b'' : β} {addr : Addr} {v : Byte} {es : List Event}
      (h : Bus.read b addr = (.ok v, b')) (rest : Answers b' es b'') :
      Answers b (.access ⟨.read, addr, v⟩ :: es) b''
  | write {b b' b'' : β} {addr : Addr} {v : Byte} {es : List Event}
      (h : Bus.write b addr v = (.ok (), b')) (rest : Answers b' es b'') :
      Answers b (.access ⟨.write, addr, v⟩ :: es) b''
  | peek {b b' : β} (addr : Addr) {es : List Event} (rest : Answers b es b') :
      Answers b (.peek addr (Bus.peek b addr) :: es) b'
  | poll {b b' b'' : β} {line : Bool} {es : List Event}
      (h : Bus.poll b = (.ok line, b')) (rest : Answers b' es b'') :
      Answers b (.poll line :: es) b''
  | note {b b' : β} (n : Note) {es : List Event} (rest : Answers b es b') :
      Answers b (.note n :: es) b'

/-- `b` answers the accesses one after the other and becomes `b'`. -/
def Serves {β : Type} [Bus β] (b : β) (as : List Access) (b' : β) : Prop :=
  Answers b (as.map .access) b'

namespace Answers

variable {β : Type} [Bus β] {b b' b'' : β} {es fs : List Event}

theorem first_read {addr : Addr} {v : Byte} (h : Answers b (.access ⟨.read, addr, v⟩ :: es) b') :
    (Bus.read b addr).1 = .ok v := by
  cases h with
  | read hr _ => rw [hr]

theorem append (h : Answers b es b') (h' : Answers b' fs b'') : Answers b (es ++ fs) b'' := by
  induction h with
  | nil => exact h'
  | read hr _ ih => exact .read hr (ih h')
  | write hw _ ih => exact .write hw (ih h')
  | peek addr _ ih => exact .peek addr (ih h')
  | poll hp _ ih => exact .poll hp (ih h')
  | note n _ ih => exact .note n (ih h')

theorem split (h : Answers b (es ++ fs) b'') : ∃ b', Answers b es b' ∧ Answers b' fs b'' := by
  -- on the events, since `h` ends in a sum that its own rules do not take apart
  induction es generalizing b with
  | nil => exact ⟨b, .nil b, h⟩
  | cons e es ih =>
    cases h with
    | read hr t => obtain ⟨b', h₁, h₂⟩ := ih t; exact ⟨b', .read hr h₁, h₂⟩
    | write hw t => obtain ⟨b', h₁, h₂⟩ := ih t; exact ⟨b', .write hw h₁, h₂⟩
    | peek addr t => obtain ⟨b', h₁, h₂⟩ := ih t; exact ⟨b', .peek addr h₁, h₂⟩
    | poll hp t => obtain ⟨b', h₁, h₂⟩ := ih t; exact ⟨b', .poll hp h₁, h₂⟩
    | note n t => obtain ⟨b', h₁, h₂⟩ := ih t; exact ⟨b', .note n h₁, h₂⟩

theorem serves (h : Answers b es b') (hu : Unpolled es) : Serves b (accesses es) b' := by
  induction h with
  | nil b => exact .nil b
  | read hr _ ih => exact .read hr (ih ((unpolled_access ..).1 hu))
  | write hw _ ih => exact .write hw (ih ((unpolled_access ..).1 hu))
  | peek _ _ ih => exact ih ((unpolled_peek ..).1 hu)
  | note _ _ ih => exact ih ((unpolled_note ..).1 hu)
  | poll => exact absurd hu (not_unpolled_poll _ _)

theorem of_notes {ns : List Note} (h : Answers b (ns.map .note ++ es) b') : Answers b es b' := by
  induction ns with
  | nil => exact h
  | cons n ns ih =>
    cases h with
    | note _ rest => exact ih rest

theorem serves_noted {as : List Access} {n : Note}
    (h : Answers b (as.map .access ++ [.note n]) b') : Serves b as b' := by
  have served := h.serves (by simp)
  rwa [accesses_append, accesses_map_access, accesses_note, accesses_nil, List.append_nil] at served

end Answers

theorem Serves.append {β : Type} [Bus β] {b b' b'' : β} {as bs : List Access} (h : Serves b as b')
    (h' : Serves b' bs b'') : Serves b (as ++ bs) b'' := by
  unfold Serves
  rw [List.map_append]
  exact Answers.append h h'

namespace Bus

variable {β : Type} [Bus β] {b b' : β}

/-- Neither an access nor a poll is refused, now or after whatever the bus has answered. -/
def NeverFaults (b : β) : Prop :=
  ∀ {es : List Event} {b' : β}, Answers b es b' →
    (∀ addr, ∃ v b'', Bus.read b' addr = (.ok v, b'')) ∧
    (∀ addr v, ∃ b'', Bus.write b' addr v = (.ok (), b'')) ∧
    ∃ line b'', Bus.poll b' = (.ok line, b'')

namespace NeverFaults

theorem later (hf : NeverFaults b) {es : List Event} (h : Answers b es b') : NeverFaults b' := by
  intro fs b'' h'
  exact hf (h.append h')

theorem reads (hf : NeverFaults b) (addr : Addr) :
    ∃ v b', Bus.read b addr = (.ok v, b') ∧ NeverFaults b' := by
  obtain ⟨v, b', hr⟩ := (hf (.nil b)).1 addr
  exact ⟨v, b', hr, hf.later (.read hr (.nil b'))⟩

theorem writes (hf : NeverFaults b) (addr : Addr) (v : Byte) :
    ∃ b', Bus.write b addr v = (.ok (), b') ∧ NeverFaults b' := by
  obtain ⟨b', hw⟩ := (hf (.nil b)).2.1 addr v
  exact ⟨b', hw, hf.later (.write hw (.nil b'))⟩

theorem polls (hf : NeverFaults b) :
    ∃ line b', Bus.poll b = (.ok line, b') ∧ NeverFaults b' := by
  obtain ⟨line, b', hp⟩ := (hf (.nil b)).2.2
  exact ⟨line, b', hp, hf.later (.poll hp (.nil b'))⟩

end NeverFaults

end Bus

section Recording

variable {β : Type} [Bus β]

/-- A recording bus keeps the accesses it answers, and answers as the bus within. -/
theorem Answers.recorded {b b' : Recorded β} {es : List Event} (h : Answers b es b') :
    b'.accesses.toList = b.accesses.toList ++ accesses es ∧ Answers b.bus es b'.bus := by
  induction h with
  | nil b => exact ⟨by simp, .nil b.bus⟩
  | @read b b₁ b₂ addr v es hr _ ih =>
    simp only [Bus.read] at hr
    split at hr <;> rename_i hb <;> cases hr
    exact ⟨by simpa using ih.1, .read hb ih.2⟩
  | @write b b₁ b₂ addr v es hw _ ih =>
    simp only [Bus.write] at hw
    split at hw <;> rename_i hb <;> cases hw
    exact ⟨by simpa using ih.1, .write hb ih.2⟩
  | peek addr _ ih => exact ⟨ih.1, .peek addr ih.2⟩
  | @poll b b₁ b₂ line es hp _ ih =>
    rcases hb : Bus.poll b.bus with ⟨r, bus⟩
    simp only [Bus.poll, hb] at hp
    cases hp
    exact ⟨ih.1, .poll hb ih.2⟩
  | note n _ ih => exact ⟨ih.1, .note n ih.2⟩

theorem Recorded.neverFaults {b : Recorded β} (hf : Bus.NeverFaults b.bus) : Bus.NeverFaults b := by
  intro es b' h
  obtain ⟨reads, writes, polls⟩ := hf h.recorded.2
  refine ⟨fun addr => ?_, fun addr v => ?_, ?_⟩
  · obtain ⟨v, b'', hr⟩ := reads addr
    exact ⟨v, ⟨b'', b'.accesses.push ⟨.read, addr, v⟩⟩, by simp only [Bus.read, hr]⟩
  · obtain ⟨b'', hw⟩ := writes addr v
    exact ⟨⟨b'', b'.accesses.push ⟨.write, addr, v⟩⟩, by simp only [Bus.write, hw]⟩
  · obtain ⟨line, b'', hp⟩ := polls
    exact ⟨line, { b' with bus := b'' }, by simp only [Bus.poll, hp]⟩

end Recording

end Mos6502
