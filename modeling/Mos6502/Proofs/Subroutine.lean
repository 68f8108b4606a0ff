import Mos6502.Proofs.StackFrame

namespace Mos6502

namespace Memory

variable {mem mem' : Memory} {sp : Byte} {n : Nat} {addr target : Addr}

/-- The three bytes of a call of `target` lie at `addr`, and none of them on the stack. -/
structure CallsAt (mem : Memory) (addr target : Addr) : Prop where
  opcode : mem.read addr = 0x20
  operand : mem.readWord (addr + 1) = target
  outside : highByte addr ≠ 1 ∧ highByte (addr + 1) ≠ 1 ∧ highByte (addr + 2) ≠ 1

structure ReturnsAt (mem : Memory) (addr : Addr) : Prop where
  opcode : mem.read addr = 0x60
  outside : highByte addr ≠ 1

theorem CallsAt.later (h : mem.CallsAt addr target) (hs : mem.SameBut sp n mem') :
    mem'.CallsAt addr target := by
  obtain ⟨opcode, operand, outside⟩ := h
  have next : addr + 1 + 1 = addr + 2 := by rw [UInt16.add_assoc]; rfl
  refine ⟨?_, ?_, outside⟩
  · rw [hs.outside outside.1]
    exact opcode
  · rw [readWord, next] at operand ⊢
    rw [hs.outside outside.2.1, hs.outside outside.2.2]
    exact operand

theorem ReturnsAt.later (h : mem.ReturnsAt addr) (hs : mem.SameBut sp n mem') :
    mem'.ReturnsAt addr where
  opcode := by
    rw [hs.outside h.outside]
    exact h.opcode
  outside := h.outside

/-- `n` calls one inside the other: at each of the addresses `c 0`, …, `c (n - 1)` lies a call of the
next, and a return at the last of them and behind every call but the first. -/
structure CallChain (mem : Memory) (c : Nat → Addr) (n : Nat) : Prop where
  calls : ∀ i < n, mem.CallsAt (c i) (c (i + 1))
  bottom : mem.ReturnsAt (c n)
  returns : ∀ i < n, 0 < i → mem.ReturnsAt (c i + 3)

theorem CallChain.tail {c : Nat → Addr} (h : mem.CallChain c (n + 1)) :
    mem.CallChain (fun i => c (i + 1)) n where
  calls i hi := h.calls (i + 1) (Nat.succ_lt_succ hi)
  bottom := h.bottom
  returns i hi _ := h.returns (i + 1) (Nat.succ_lt_succ hi) (Nat.succ_pos i)

def CallChain.exit (c : Nat → Addr) (n : Nat) : Addr := if n = 0 then c 0 else c 0 + 3

theorem CallChain.returnsAt_exit {c : Nat → Addr} (h : mem.CallChain c (n + 1)) :
    mem.ReturnsAt (exit (fun i => c (i + 1)) n) := by
  unfold exit
  split
  · rename_i innermost
    subst innermost
    exact h.bottom
  · apply h.returns 1
    · omega
    · omega

theorem CallChain.later {c : Nat → Addr} (h : mem.CallChain c n) {k : Nat}
    (hs : mem.SameBut sp k mem') : mem'.CallChain c n where
  calls i hi := (h.calls i hi).later hs
  bottom := h.bottom.later hs
  returns i hi pos := (h.returns i hi pos).later hs

end Memory

namespace Machine

variable {ω : Type} [Observer ω] {m : Machine Memory ω}

theorem Idle.call_saves (h : m.Idle) {target : Addr}
    (hc : m.bus.CallsAt m.cpu.regs.pc target) :
    ∃ m', Executes [.JSR] m m' ∧
      m.Saves [highByte (m.cpu.regs.pc + 2), lowByte (m.cpu.regs.pc + 2)] m' ∧
      m'.cpu.regs = (m.cpu.regs.set .sp (m.cpu.regs.sp - 2)).setPc target := by
  obtain ⟨m', called, idle, bus, regs⟩ := h.calls hc.opcode
  rw [hc.operand] at regs
  refine ⟨m', called, ⟨idle, ?_, ?_⟩, regs⟩
  · rw [regs]
    rfl
  · rw [bus]
    exact .two _ _ _ _

theorem Idle.call_and_return (h : m.Idle) {target back : Addr} {k : Nat} {names : List Mnemonic}
    (hc : m.bus.CallsAt m.cpu.regs.pc target) (hr : m.bus.ReturnsAt back) (hk : 2 + k ≤ 256)
    (enclosed : ∀ m₁ : Machine Memory ω, m₁.Idle → m₁.cpu.regs.pc = target →
      m.bus.SameBut m.cpu.regs.sp 2 m₁.bus →
      ∃ m₂, Executes names m₁ m₂ ∧ m₁.Resumes back k m₂) :
    ∃ m', Executes (.JSR :: (names ++ [.RTS])) m m' ∧
      m.Resumes (m.cpu.regs.pc + 3) (2 + k) m' := by
  obtain ⟨m₁, called, saves, regs₁⟩ := h.call_saves hc
  have entered : m₁.cpu.regs.pc = target := by rw [regs₁]; rfl
  obtain ⟨m₂, inner, resumes⟩ := enclosed m₁ saves.idle entered saves.memory.sameBut
  have low : m₂.stacked 1 = lowByte (m.cpu.regs.pc + 2) :=
    saves.stacked resumes hk (j := 1) (Nat.lt_succ_self 1)
  have high : m₂.stacked 2 = highByte (m.cpu.regs.pc + 2) :=
    saves.stacked resumes hk (j := 0) (Nat.succ_pos 1)
  have last : m₂.bus.read m₂.cpu.regs.pc = 0x60 := by
    rw [resumes.regs]
    exact (hr.later (saves.sameBut resumes)).opcode
  obtain ⟨m₃, returned, idle₃, bus₃, regs₃⟩ := resumes.idle.returns last
  refine ⟨m₃, called.append (inner.append returned), idle₃, ?_, ?_⟩
  · have behind : m.cpu.regs.pc + 2 + 1 = m.cpu.regs.pc + 3 := by rw [UInt16.add_assoc]; rfl
    have up : m.cpu.regs.sp - 2 + 2 = m.cpu.regs.sp := UInt8.sub_add_cancel _ _
    rw [regs₃, low, high, word_lowByte_highByte, behind, resumes.regs, regs₁]
    show Registers.setPc { m.cpu.regs with sp := m.cpu.regs.sp - 2 + 2 } _ = _
    rw [up]
  · rw [bus₃]
    exact saves.sameBut resumes

/-- A chain of calls is run through from its first call, downwards and back. -/
theorem Idle.runs_chain {c : Nat → Addr} {n : Nat} (h : m.Idle) (hn : n ≤ 128)
    (hc : m.cpu.regs.pc = c 0) (chain : m.bus.CallChain c n) :
    ∃ m', Executes (List.replicate n .JSR ++ List.replicate n .RTS) m m' ∧
      m.Resumes (Memory.CallChain.exit c n) (2 * n) m' := by
  induction n generalizing c m with
  | zero =>
    refine ⟨m, .nil m, ?_⟩
    rw [Memory.CallChain.exit, if_pos rfl, ← hc]
    exact .refl h
  | succ n ih =>
    have first := chain.calls 0 (Nat.succ_pos n)
    rw [← hc] at first
    have enclosed (m₁ : Machine Memory ω) (idle₁ : m₁.Idle) (entered : m₁.cpu.regs.pc = c 1)
        (pushed : m.bus.SameBut m.cpu.regs.sp 2 m₁.bus) :=
      ih idle₁ (Nat.le_of_succ_le hn) entered (chain.tail.later pushed)
    obtain ⟨m', executes, resumes⟩ :=
      h.call_and_return first chain.returnsAt_exit (by omega) enclosed
    refine ⟨m', ?_, ?_⟩
    · rw [List.replicate_succ, List.replicate_succ']
      simpa using executes
    · rw [Memory.CallChain.exit, if_neg (Nat.succ_ne_zero n), ← hc, Nat.mul_succ, Nat.add_comm]
      exact resumes

/-- Calls nested one inside the other, as many as the stack has room for, return in turn. The machine
goes on behind the first of them, and only the cells that held the return addresses have changed. -/
theorem nested_calls_return {c : Nat → Addr} {n : Nat} (h : m.Idle) (hn : 1 ≤ n) (hn' : n ≤ 128)
    (hc : m.cpu.regs.pc = c 0) (chain : m.bus.CallChain c n) :
    ∃ m', Executes (List.replicate n .JSR ++ List.replicate n .RTS) m m' ∧
      m.Resumes (c 0 + 3) (2 * n) m' := by
  have returned := h.runs_chain hn' hc chain
  rw [Memory.CallChain.exit, if_neg (Nat.ne_of_gt hn)] at returned
  exact returned

/-- Two calls, the outer one across the top of memory, and a stack that wraps. -/
def nested : Machine Memory Empty where
  cpu := { regs := { sp := 0x01, pc := 0xFFFE } }
  bus := ((Memory.zero.store 0xFFFE [0x20, 0x00, 0x80]).store 0x8000 [0x20, 0x00, 0x90, 0x60]).write
    0x9000 0x60

theorem wrapping_calls_return :
    ∃ m', Executes [.JSR, .JSR, .RTS, .RTS] nested m' ∧ nested.Resumes 0x0001 4 m' := by
  have idle : nested.Idle := ⟨rfl, rfl, by simp [nested]⟩
  let c (i : Nat) : Addr := [0xFFFE, 0x8000, 0x9000].getD i 0
  have outer : nested.bus.CallsAt 0xFFFE 0x8000 := ⟨rfl, rfl, by decide⟩
  have inner : nested.bus.CallsAt 0x8000 0x9000 := ⟨rfl, rfl, by decide⟩
  have bottom : nested.bus.ReturnsAt 0x9000 := ⟨rfl, by decide⟩
  have behind : nested.bus.ReturnsAt 0x8003 := ⟨rfl, by decide⟩
  have chain : nested.bus.CallChain c 2 := by
    refine ⟨?_, bottom, ?_⟩
    · intro i hi
      match i, hi with
      | 0, _ => exact outer
      | 1, _ => exact inner
    · intro i hi pos
      match i, hi, pos with
      | 1, _, _ => exact behind
  have wraps : (0x0001 : Addr) = 0xFFFE + 3 := by decide
  rw [wraps]
  exact nested_calls_return idle (by decide) (by decide) rfl chain

end Machine

end Mos6502
