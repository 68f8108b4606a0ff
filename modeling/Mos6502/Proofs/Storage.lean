import Mos6502.Bus.Wired
import Mos6502.Proofs.Exchange

namespace Mos6502

def Access.store (mem : Addr → Byte) (a : Access) : Addr → Byte :=
  match a.kind with
  | .read => mem
  | .write => fun addr => if addr = a.addr then a.value else mem addr

/-- What a memory with the bytes `mem` holds after some accesses. -/
def stored (mem : Addr → Byte) (as : List Access) : Addr → Byte := as.foldl Access.store mem

def WritesNothing (as : List Access) : Prop := ∀ a ∈ as, a.kind = .read

def OnlyLooks (es : List Event) : Prop := WritesNothing (accesses es) ∧ Unpolled es

section Lists

variable (mem : Addr → Byte) (as bs : List Access) (addr : Addr) (v : Byte)

@[simp] theorem stored_read : stored mem (⟨.read, addr, v⟩ :: as) = stored mem as := rfl

theorem stored_append : stored mem (as ++ bs) = stored (stored mem as) bs := List.foldl_append

@[simp] theorem writesNothing_nil : WritesNothing [] := by simp [WritesNothing]

@[simp] theorem writesNothing_append :
    WritesNothing (as ++ bs) ↔ WritesNothing as ∧ WritesNothing bs := by
  simp [WritesNothing, or_imp, forall_and]

@[simp] theorem writesNothing_read :
    WritesNothing (⟨.read, addr, v⟩ :: as) ↔ WritesNothing as := by simp [WritesNothing]

theorem WritesNothing.stored {as : List Access} (h : WritesNothing as) : stored mem as = mem := by
  induction as with
  | nil => rfl
  | cons a as ih =>
    rcases a with ⟨kind, addr, v⟩
    obtain rfl : kind = .read := h _ List.mem_cons_self
    rw [stored_read]
    exact ih ((writesNothing_read ..).1 h)

section Looks

variable (es fs : List Event)

@[simp] theorem onlyLooks_nil : OnlyLooks [] := by simp [OnlyLooks]

@[simp] theorem onlyLooks_append : OnlyLooks (es ++ fs) ↔ OnlyLooks es ∧ OnlyLooks fs := by
  simp [OnlyLooks, and_and_and_comm]

@[simp] theorem onlyLooks_read :
    OnlyLooks (.access ⟨.read, addr, v⟩ :: es) ↔ OnlyLooks es := by simp [OnlyLooks]

@[simp] theorem onlyLooks_peek : OnlyLooks (.peek addr v :: es) ↔ OnlyLooks es := by
  simp [OnlyLooks]

@[simp] theorem onlyLooks_note (n : Note) : OnlyLooks (.note n :: es) ↔ OnlyLooks es := by
  simp [OnlyLooks]

end Looks

theorem OnlyReads.writesNothing {es : List Event} (h : OnlyReads es) :
    WritesNothing (accesses es) := by
  intro a ha
  have member : .access a ∈ es := by
    rw [h.eq_map]
    exact List.mem_map_of_mem ha
  obtain ⟨addr, v, he⟩ := h _ member
  cases he
  rfl

theorem OnlyReads.onlyLooks {es : List Event} (h : OnlyReads es) : OnlyLooks es :=
  ⟨h.writesNothing, h.unpolled⟩

theorem stored_of_not_written {as : List Access}
    (h : ∀ a ∈ as, a.kind = .write → a.addr ≠ addr) : stored mem as addr = mem addr := by
  induction as generalizing mem with
  | nil => rfl
  | cons a as ih =>
    have rest := ih (a.store mem) fun a' ha' => h a' (List.mem_cons_of_mem a ha')
    rw [← show stored mem (a :: as) = stored (a.store mem) as from rfl] at rest
    rw [rest]
    have here := h a List.mem_cons_self
    rcases a with ⟨_ | _, addr', v⟩
    · rfl
    · exact if_neg (here rfl).symm

end Lists

def Bus.Quiet (β : Type) [Bus β] : Prop :=
  ∀ {b b' : β} {addr : Addr} {v : Byte}, Bus.read b addr = (.ok v, b') → b' = b

theorem Bus.Quiet.served {β : Type} [Bus β] (hq : Bus.Quiet β) {b b' : β} {as : List Access}
    (h : Serves b as b') (hw : WritesNothing as) : b' = b := by
  induction as generalizing b with
  | nil => cases h; rfl
  | cons a as ih =>
    cases h with
    | read hr rest =>
      obtain rfl := hq hr
      exact ih rest ((writesNothing_read ..).1 hw)
    | write _ _ => exact absurd (hw _ List.mem_cons_self) (by simp)

theorem Bus.Quiet.answered {β : Type} [Bus β] (hq : Bus.Quiet β) {b b' : β} {es : List Event}
    (h : Answers b es b') (hl : OnlyLooks es) : b' = b :=
  hq.served (h.serves hl.2) hl.1

/-- `cell b addr` is the byte that the bus `b` holds at `addr`: a read gives this byte and changes
none, a write changes this byte and no other, and a poll changes none. -/
structure Bus.Holds {β : Type} [Bus β] (cell : β → Addr → Byte) : Prop where
  read {b b' : β} {addr : Addr} {v : Byte} (h : Bus.read b addr = (.ok v, b')) :
    v = cell b addr ∧ cell b' = cell b
  write {b b' : β} {addr : Addr} {v : Byte} (h : Bus.write b addr v = (.ok (), b')) :
    cell b' = (Access.mk .write addr v).store (cell b)
  poll {b b' : β} {line : Bool} (h : Bus.poll b = (.ok line, b')) : cell b' = cell b

namespace Bus.Holds

variable {β : Type} [Bus β] {cell : β → Addr → Byte}

theorem answered (hc : Bus.Holds cell) {b b' : β} {es : List Event} (h : Answers b es b') :
    cell b' = stored (cell b) (accesses es) := by
  induction h with
  | nil b => rfl
  | read hr _ ih => rw [ih, accesses_access, stored_read, (hc.read hr).2]
  | write hw _ ih => rw [ih, accesses_access, hc.write hw]; rfl
  | poll hp _ ih => rw [ih, accesses_poll, hc.poll hp]
  | peek _ _ ih | note _ _ ih => exact ih

theorem served (hc : Bus.Holds cell) {b b' : β} {as : List Access} (h : Serves b as b') :
    cell b' = stored (cell b) as := by
  rw [hc.answered h, accesses_map_access]

theorem read_served (hc : Bus.Holds cell) {b b' : β} (as : List Access) {bs : List Access}
    {addr : Addr} {v : Byte} (h : Serves b (as ++ ⟨.read, addr, v⟩ :: bs) b') :
    v = stored (cell b) as addr := by
  unfold Serves at h
  rw [List.map_append, List.map_cons] at h
  obtain ⟨b₁, before, rest⟩ := h.split
  cases rest with
  | read hr _ => rw [← hc.served before, (hc.read hr).1]

end Bus.Holds

theorem Memory.neverFaults {m : Memory} : Bus.NeverFaults m := by
  intro es m' _
  exact ⟨fun addr => ⟨m'.read addr, m', rfl⟩, fun addr v => ⟨m'.write addr v, rfl⟩, false, m', rfl⟩

theorem Memory.quiet : Bus.Quiet Memory := by
  intro m m' addr v h
  cases h
  rfl

theorem Memory.holds : Bus.Holds Memory.read where
  read h := by cases h; exact ⟨rfl, rfl⟩
  write {b b' addr v} h := by
    cases h
    funext x
    exact Memory.read_write b addr x v
  poll h := by cases h; rfl

theorem Wired.neverFaults {w : Wired} : Bus.NeverFaults w := by
  intro es w' _
  exact ⟨fun addr => ⟨w'.memory.read addr, w', rfl⟩,
    fun addr v => ⟨{ w' with memory := w'.memory.write addr v }, rfl⟩, _, w', rfl⟩

theorem Wired.quiet : Bus.Quiet Wired := by
  intro b b' addr v h
  cases h
  rfl

end Mos6502
