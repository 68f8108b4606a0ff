import Mos6502.Proofs.PlainMemory

namespace Mos6502

namespace Cpu

@[simp] theorem highByte_stackAddr (sp : Byte) : highByte (stackAddr sp) = 1 := by
  have h := sp.toNat_lt
  have page : (256 + sp.toNat) / 256 = 1 := by omega
  rw [highByte, toNat_stackAddr, page]
  rfl

theorem stackAddr_inj {sp sp' : Byte} : stackAddr sp = stackAddr sp' ↔ sp = sp' := by
  rw [← UInt16.toNat_inj, ← UInt8.toNat_inj, toNat_stackAddr, toNat_stackAddr]
  omega

/-- `n` cells of the stack: the one that `sp` names, and those below it. -/
def Below (sp : Byte) (n : Nat) (addr : Addr) : Prop :=
  ∃ j < n, addr = stackAddr (sp - UInt8.ofNat j)

section Below

variable {sp : Byte} {j k n : Nat} {addr : Addr}

theorem sub_ofNat_add (sp : Byte) (j k : Nat) :
    sp - UInt8.ofNat j - UInt8.ofNat k = sp - UInt8.ofNat (j + k) := by
  rw [UInt8.ofNat_add]
  grind

theorem sub_ofNat_add_ofNat (hj : j ≤ k) :
    sp - UInt8.ofNat k + UInt8.ofNat (k - j) = sp - UInt8.ofNat j := by
  obtain ⟨i, rfl⟩ := Nat.exists_eq_add_of_le hj
  rw [← sub_ofNat_add, Nat.add_sub_cancel_left, UInt8.sub_add_cancel]

theorem sub_ofNat_inj (hj : j < 256) (hk : k < 256) :
    sp - UInt8.ofNat j = sp - UInt8.ofNat k ↔ j = k := by
  have h := sp.toNat_lt
  rw [← UInt8.toNat_inj, UInt8.toNat_sub, UInt8.toNat_sub]
  simp
  omega

theorem not_below_of_outside (h : highByte addr ≠ 1) : ¬ Below sp n addr := by
  rintro ⟨j, -, rfl⟩
  exact h (highByte_stackAddr _)

theorem not_below_of_above (hj : j < k) (hn : k + n ≤ 256) :
    ¬ Below (sp - UInt8.ofNat k) n (stackAddr (sp - UInt8.ofNat j)) := by
  rintro ⟨i, hi, same⟩
  rw [stackAddr_inj, sub_ofNat_add, sub_ofNat_inj (by omega) (by omega)] at same
  omega

theorem Below.mono (h : Below sp n addr) (hn : n ≤ k) : Below sp k addr := by
  obtain ⟨j, hj, rfl⟩ := h
  exact ⟨j, by omega, rfl⟩

theorem Below.under (h : Below (sp - UInt8.ofNat k) n addr) : Below sp (k + n) addr := by
  obtain ⟨j, hj, rfl⟩ := h
  refine ⟨k + j, by omega, ?_⟩
  rw [sub_ofNat_add]

end Below

end Cpu

namespace Memory

/-- None but the `n` cells of the stack from `sp` down have changed. -/
def SameBut (sp : Byte) (n : Nat) (mem mem' : Memory) : Prop :=
  ∀ addr, ¬ Cpu.Below sp n addr → mem'.read addr = mem.read addr

namespace SameBut

variable {sp : Byte} {j k n : Nat} {mem mem' mem'' : Memory}

theorem refl (sp : Byte) (n : Nat) (mem : Memory) : mem.SameBut sp n mem := fun _ _ => rfl

theorem write (h : mem.SameBut sp n mem') (v : Byte) :
    mem.SameBut sp (n + 1) (mem'.write (Cpu.stackAddr (sp - UInt8.ofNat n)) v) := by
  intro addr outside
  rw [read_write, if_neg ?_]
  · apply h
    intro inside
    exact outside (inside.mono (Nat.le_succ n))
  · rintro rfl
    exact outside ⟨n, Nat.lt_succ_self n, rfl⟩

theorem trans (h : mem.SameBut sp k mem') (h' : mem'.SameBut (sp - UInt8.ofNat k) n mem'') :
    mem.SameBut sp (k + n) mem'' := by
  intro addr outside
  have first : ¬ Cpu.Below sp k addr := fun inside => outside (inside.mono (Nat.le_add_right k n))
  have second : ¬ Cpu.Below (sp - UInt8.ofNat k) n addr := fun inside => outside inside.under
  rw [h' addr second, h addr first]

theorem outside (h : mem.SameBut sp n mem') {addr : Addr} (ha : highByte addr ≠ 1) :
    mem'.read addr = mem.read addr :=
  h addr (Cpu.not_below_of_outside ha)

theorem above (h : mem.SameBut (sp - UInt8.ofNat k) n mem') (hn : k + n ≤ 256) (hj : j < k) :
    mem'.read (Cpu.stackAddr (sp - UInt8.ofNat k + UInt8.ofNat (k - j))) =
      mem.read (Cpu.stackAddr (sp - UInt8.ofNat j)) := by
  rw [Cpu.sub_ofNat_add_ofNat (Nat.le_of_lt hj)]
  exact h _ (Cpu.not_below_of_above hj hn)

end SameBut

/-- The bytes `vs` have been pushed, the first of them to the cell that `sp` names. -/
structure Pushed (sp : Byte) (vs : List Byte) (mem mem' : Memory) : Prop where
  cell (j : Nat) (hj : j < vs.length) : mem'.read (Cpu.stackAddr (sp - UInt8.ofNat j)) = vs[j]
  sameBut : mem.SameBut sp vs.length mem'

namespace Pushed

variable {sp : Byte} {vs : List Byte} {mem mem' : Memory}

theorem nil (sp : Byte) (mem : Memory) : mem.Pushed sp [] mem where
  cell j hj := absurd hj (Nat.not_lt_zero j)
  sameBut := .refl sp 0 mem

theorem push (h : mem.Pushed sp vs mem') (hn : vs.length < 256) {addr : Addr}
    (ha : addr = Cpu.stackAddr (sp - UInt8.ofNat vs.length)) (v : Byte) :
    mem.Pushed sp (vs ++ [v]) (mem'.write addr v) := by
  subst ha
  refine ⟨?_, ?_⟩
  · intro j hj
    rw [List.length_append, List.length_singleton] at hj
    rcases Nat.lt_succ_iff_lt_or_eq.1 hj with earlier | rfl
    · have apart : Cpu.stackAddr (sp - UInt8.ofNat j) ≠
          Cpu.stackAddr (sp - UInt8.ofNat vs.length) := by
        rw [Ne, Cpu.stackAddr_inj, Cpu.sub_ofNat_inj (by omega) hn]
        exact Nat.ne_of_lt earlier
      rw [read_write, if_neg apart, h.cell j earlier, List.getElem_append_left earlier]
    · rw [read_write_self, List.getElem_concat_length rfl]
  · rw [List.length_append, List.length_singleton]
    exact h.sameBut.write v

theorem one (sp v : Byte) (mem : Memory) :
    mem.Pushed sp [v] (mem.write (Cpu.stackAddr sp) v) := by
  apply (nil sp mem).push (Nat.succ_pos 255)
  exact congrArg Cpu.stackAddr (UInt8.sub_zero sp).symm

theorem two (sp v w : Byte) (mem : Memory) :
    mem.Pushed sp [v, w]
      ((mem.write (Cpu.stackAddr sp) v).write (Cpu.stackAddr (sp - 1)) w) := by
  apply (one sp v mem).push
  · simp
  · rfl

end Pushed

end Memory

namespace Machine

variable {ω : Type} [Observer ω]

/-- An idle machine `m'` goes on at `pc` with all else as in `m`, but for the `n` cells of the stack
from the stack pointer down. -/
structure Resumes (pc : Addr) (n : Nat) (m m' : Machine Memory ω) : Prop where
  idle : m'.Idle
  regs : m'.cpu.regs = m.cpu.regs.setPc pc
  memory : m.bus.SameBut m.cpu.regs.sp n m'.bus

theorem Resumes.refl {m : Machine Memory ω} (h : m.Idle) : m.Resumes m.cpu.regs.pc 0 m where
  idle := h
  regs := rfl
  memory := .refl _ 0 _

/-- An idle machine `m'` has come from `m` by pushing `vs`; other registers may have changed. -/
structure Saves (vs : List Byte) (m m' : Machine Memory ω) : Prop where
  idle : m'.Idle
  sp : m'.cpu.regs.sp = m.cpu.regs.sp - UInt8.ofNat vs.length
  memory : m.bus.Pushed m.cpu.regs.sp vs m'.bus

namespace Saves

variable {m m₁ m₂ : Machine Memory ω} {vs : List Byte} {pc : Addr} {n : Nat}

theorem sameBut (h : m.Saves vs m₁) (resumes : m₁.Resumes pc n m₂) :
    m.bus.SameBut m.cpu.regs.sp (vs.length + n) m₂.bus := by
  have below := resumes.memory
  rw [h.sp] at below
  exact h.memory.sameBut.trans below

theorem stacked (h : m.Saves vs m₁) (resumes : m₁.Resumes pc n m₂) (hn : vs.length + n ≤ 256)
    {j : Nat} (hj : j < vs.length) : m₂.stacked (UInt8.ofNat (vs.length - j)) = vs[j] := by
  have below := resumes.memory
  have same : m₂.cpu.regs.sp = m₁.cpu.regs.sp := by rw [resumes.regs]; rfl
  rw [h.sp] at below same
  rw [Machine.stacked, same, below.above hn hj]
  exact h.memory.cell j hj

end Saves

end Machine

end Mos6502
