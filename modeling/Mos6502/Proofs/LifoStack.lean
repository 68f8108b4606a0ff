import Mathlib.Data.List.Infix
import Mos6502.Proofs.StackFrame

namespace Mos6502

inductive StackOp where
  | push (v : Byte)
  | pushWord (w : Addr)
  | pop
  | popWord
  deriving DecidableEq, Repr

inductive Popped where
  | nothing
  | byte (v : Byte)
  | word (w : Addr)
  deriving DecidableEq, Repr

namespace StackOp

def perform : StackOp → Micro Cpu Popped
  | .push v => do
    Cpu.push v
    return .nothing
  | .pushWord w => do
    Cpu.pushWord w
    return .nothing
  | .pop => return .byte (← Cpu.pop)
  | .popWord => return .word (← Cpu.popWord)

/-- The same on a list, the top of the stack first. A word is its low byte above its high byte. -/
def onList : StackOp → List Byte → Option (Popped × List Byte)
  | .push v, vs => some (.nothing, v :: vs)
  | .pushWord w, vs => some (.nothing, lowByte w :: highByte w :: vs)
  | .pop, v :: vs => some (.byte v, vs)
  | .popWord, lo :: hi :: vs => some (.word (word lo hi), vs)
  | .pop, [] | .popWord, [] | .popWord, [_] => none

def onLists : List StackOp → List Byte → Option (List Popped × List Byte)
  | [], vs => some ([], vs)
  | op :: ops, vs => do
    let (popped, vs) ← op.onList vs
    let (later, vs) ← onLists ops vs
    return (popped :: later, vs)

def growth : StackOp → Int
  | .push _ => 1
  | .pushWord _ => 2
  | .pop => -1
  | .popWord => -2

def depth : List StackOp → Int
  | [] => 0
  | op :: ops => op.growth + depth ops

/-- The depth never falls below the bottom, and page one has a cell for every byte. -/
def Fits (ops : List StackOp) : Prop :=
  ∀ done, done <+: ops → 0 ≤ depth done ∧ depth done ≤ 256

instance (ops : List StackOp) : Decidable (Fits ops) :=
  decidable_of_iff (∀ done ∈ ops.inits, 0 ≤ depth done ∧ depth done ≤ 256) (by simp [Fits])

@[simp] theorem depth_nil : depth [] = 0 := rfl

@[simp] theorem depth_cons (op : StackOp) (ops : List StackOp) :
    depth (op :: ops) = op.growth + depth ops := rfl

theorem length_onList {op : StackOp} {vs vs' : List Byte} {popped : Popped}
    (h : op.onList vs = some (popped, vs')) : vs'.length = vs.length + op.growth := by
  unfold onList at h
  split at h <;> cases h <;> simp only [List.length_cons, growth] <;> omega

theorem Fits.of_prefix {ops done : List StackOp} (h : Fits ops) (hd : done <+: ops) : Fits done :=
  fun before hb => h before (hb.trans hd)

/-- Whatever bus answers, nothing is written but cells of page one. -/
theorem writes_page_one {β : Type} [Bus β] (op : StackOp) (c : Cpu) (b : β) :
    ∀ a ∈ accesses (op.perform.events c b), a.kind = .write → highByte a.addr = 1 := by
  have ensured : op.perform.Ensures c fun es _ =>
      ∀ a ∈ accesses es, a.kind = .write → highByte a.addr = 1 := by
    cases op with
    | push v => simp [perform]
    | pushWord w => simp [perform, Cpu.ensures_pushWord]
    | pop => simp [perform]
    | popWord => simp [perform, Cpu.ensures_popWord]
  obtain ⟨o, b', h, -⟩ := ensured.on b
  exact h

end StackOp

namespace Cpu

variable {c₀ c : Cpu} {mem₀ mem : Memory} {vs : List Byte} {v : Byte} {reach : Nat}

/-- From `c₀` and `mem₀`, with an empty stack, the bytes `vs` have come to lie on the stack, the last
of them on the cell that the stack pointer named at first. No more than `reach` cells have been used. -/
structure Stacks (c₀ : Cpu) (mem₀ : Memory) (vs : List Byte) (reach : Nat) (c : Cpu) (mem : Memory) :
    Prop where
  cpu : c = c₀.setSp (c₀.regs.sp - UInt8.ofNat vs.length)
  length_le : vs.length ≤ reach
  reach_le : reach ≤ 256
  cell (j : Nat) (hj : j < vs.length) :
    vs.reverse[j]? = some (mem.read (stackAddr (c₀.regs.sp - UInt8.ofNat j)))
  sameBut : mem₀.SameBut c₀.regs.sp reach mem

namespace Stacks

theorem sp_eq (h : Stacks c₀ mem₀ vs reach c mem) :
    c.regs.sp = c₀.regs.sp - UInt8.ofNat vs.length := by
  rw [h.cpu]
  rfl

theorem nil (c : Cpu) (mem : Memory) : Stacks c mem [] 0 c mem where
  cpu := by
    have same : c.regs.sp - UInt8.ofNat ([] : List Byte).length = c.regs.sp := UInt8.sub_zero _
    rw [same]
    rfl
  length_le := Nat.le_refl 0
  reach_le := Nat.zero_le 256
  cell j hj := absurd hj (Nat.not_lt_zero j)
  sameBut := .refl _ 0 mem

theorem push (h : Stacks c₀ mem₀ vs reach c mem) (room : vs.length < 256) (v : Byte) :
    Stacks c₀ mem₀ (v :: vs) (max reach (vs.length + 1)) (c.setSp (c.regs.sp - 1))
      (mem.write (stackAddr c.regs.sp) v) where
  cpu := by
    have down := sub_ofNat_add c₀.regs.sp vs.length 1
    rw [h.sp_eq, h.cpu, setSp_setSp, List.length_cons, ← down]
    rfl
  length_le := Nat.le_max_right ..
  reach_le := Nat.max_le.2 ⟨h.reach_le, room⟩
  cell j hj := by
    rw [List.reverse_cons, h.sp_eq]
    rcases Nat.lt_succ_iff_lt_or_eq.1 hj with below | rfl
    · -- the cells are numbered from the bottom, so that a push leaves their numbers alone
      have apart : stackAddr (c₀.regs.sp - UInt8.ofNat j) ≠
          stackAddr (c₀.regs.sp - UInt8.ofNat vs.length) := by
        rw [Ne, stackAddr_inj, sub_ofNat_inj (by omega) room]
        exact Nat.ne_of_lt below
      rw [Memory.read_write, if_neg apart, ← h.cell j below]
      exact List.getElem?_append_left (by simpa using below)
    · rw [Memory.read_write_self, ← List.length_reverse]
      exact List.getElem?_concat_length
  sameBut := by
    intro addr outside
    have named : addr ≠ stackAddr c.regs.sp := by
      rw [h.sp_eq]
      rintro rfl
      exact outside ⟨vs.length, by omega, rfl⟩
    rw [Memory.read_write, if_neg named]
    exact h.sameBut addr fun inside => outside (inside.mono (Nat.le_max_left ..))

theorem sp_add_one (h : Stacks c₀ mem₀ (v :: vs) reach c mem) :
    c.regs.sp + 1 = c₀.regs.sp - UInt8.ofNat vs.length := by
  rw [h.sp_eq, List.length_cons, ← sub_ofNat_add]
  exact UInt8.sub_add_cancel _ _

theorem top (h : Stacks c₀ mem₀ (v :: vs) reach c mem) :
    mem.read (stackAddr (c.regs.sp + 1)) = v := by
  have last : (v :: vs).reverse[vs.length]? = some v := by
    rw [List.reverse_cons, ← List.length_reverse]
    exact List.getElem?_concat_length
  rw [h.sp_add_one, ← Option.some.injEq, ← h.cell vs.length (Nat.lt_succ_self _), last]

theorem pop (h : Stacks c₀ mem₀ (v :: vs) reach c mem) :
    Stacks c₀ mem₀ vs reach (c.setSp (c.regs.sp + 1)) mem where
  cpu := by
    rw [h.sp_add_one, h.cpu, setSp_setSp]
  length_le := Nat.le_of_succ_le h.length_le
  reach_le := h.reach_le
  cell j hj := by
    rw [← h.cell j (Nat.lt_succ_of_lt hj), List.reverse_cons]
    exact (List.getElem?_append_left (by simpa using hj)).symm
  sameBut := h.sameBut

/-- An operation that keeps to the bounds of the stack does what it does on a list. -/
theorem perform (h : Stacks c₀ mem₀ vs reach c mem) {op : StackOp} (low : 0 ≤ vs.length + op.growth)
    (high : vs.length + op.growth ≤ 256) :
    ∃ popped vs' c' mem', op.onList vs = some (popped, vs') ∧
      op.perform.on c mem = ⟨.ok popped, c', mem', []⟩ ∧
      Stacks c₀ mem₀ vs' (max reach vs'.length) c' mem' := by
  cases op with
  | push v =>
    rw [StackOp.growth] at high
    exact ⟨_, _, _, _, rfl, rfl, h.push (by omega) v⟩
  | pushWord w =>
    rw [StackOp.growth] at high
    -- the high byte goes first, so that the low byte lies above it
    have first := h.push (by omega) (highByte w)
    have second := first.push (by rw [List.length_cons]; omega) (lowByte w)
    have reached : max (max reach (vs.length + 1)) ((highByte w :: vs).length + 1) =
        max reach (lowByte w :: highByte w :: vs).length := by
      simp only [List.length_cons]
      omega
    rw [reached] at second
    exact ⟨_, _, _, _, rfl, rfl, second⟩
  | pop =>
    rw [StackOp.growth] at low
    match vs, h with
    | [], _ => exact absurd low (by decide)
    | v :: vs, h =>
      -- a pop reaches no deeper than the stack has been
      have used := h.length_le
      have reached : max reach vs.length = reach := Nat.max_eq_left (Nat.le_of_succ_le used)
      have popped : StackOp.pop.perform.on c mem =
          ⟨.ok (.byte (mem.read (stackAddr (c.regs.sp + 1)))), c.setSp (c.regs.sp + 1), mem, []⟩ :=
        rfl
      rw [h.top] at popped
      refine ⟨_, _, _, _, rfl, popped, ?_⟩
      rw [reached]
      exact h.pop
  | popWord =>
    rw [StackOp.growth] at low
    match vs, h with
    | [], _ => exact absurd low (by decide)
    | [_], _ => exact absurd low (by simp)
    | lo :: hi :: vs, h =>
      have used := h.length_le
      have reached : max reach vs.length = reach := by
        rw [List.length_cons, List.length_cons] at used
        omega
      have popped : StackOp.popWord.perform.on c mem =
          ⟨.ok (.word (word (mem.read (stackAddr (c.regs.sp + 1)))
              (mem.read (stackAddr ((c.setSp (c.regs.sp + 1)).regs.sp + 1))))),
            (c.setSp (c.regs.sp + 1)).setSp ((c.setSp (c.regs.sp + 1)).regs.sp + 1), mem, []⟩ := rfl
      rw [h.top, h.pop.top] at popped
      refine ⟨_, _, _, _, rfl, popped, ?_⟩
      rw [reached]
      exact h.pop.pop

end Stacks

end Cpu

namespace Machine

variable {β ω : Type} [Bus β]

def useStack : List StackOp → Machine β ω → List (Except Abort Popped) × Machine β ω
  | [], m => ([], m)
  | op :: ops, m =>
    let (popped, m') := m.performCpu op.perform
    let (later, m'') := m'.useStack ops
    (popped :: later, m'')

def stackAccesses : List StackOp → Machine β ω → List Access
  | [], _ => []
  | op :: ops, m =>
    accesses (op.perform.events m.cpu m.bus) ++ (m.performCpu op.perform).2.stackAccesses ops

variable {m : Machine Memory ω}

theorem performCpu_of_on {α : Type} {p : Micro Cpu α} {a : α} {c : Cpu} {mem : Memory}
    (h : p.on m.cpu m.bus = ⟨.ok a, c, mem, []⟩) :
    m.performCpu p = (.ok a, { m with cpu := c, bus := mem }) := by
  rw [performCpu_eq, h]
  rfl

theorem useStack_of_stacks {c₀ : Cpu} {mem₀ : Memory} {vs : List Byte} {reach : Nat}
    (h : Cpu.Stacks c₀ mem₀ vs reach m.cpu m.bus) {ops : List StackOp}
    (fits : ∀ done, done <+: ops → 0 ≤ vs.length + StackOp.depth done ∧
      vs.length + StackOp.depth done ≤ 256) :
    ∃ popped vs' c mem reach', StackOp.onLists ops vs = some (popped, vs') ∧
      m.useStack ops = (popped.map .ok, { m with cpu := c, bus := mem }) ∧
      vs'.length = vs.length + StackOp.depth ops ∧ Cpu.Stacks c₀ mem₀ vs' reach' c mem ∧
      ∀ k : Nat, reach ≤ k → (∀ done, done <+: ops → vs.length + StackOp.depth done ≤ k) →
        reach' ≤ k := by
  induction ops generalizing m vs reach with
  | nil =>
    refine ⟨[], vs, m.cpu, m.bus, reach, rfl, rfl, by simp, h, ?_⟩
    intro k hk _
    exact hk
  | cons op ops ih =>
    have first := fits [op] ⟨ops, rfl⟩
    rw [StackOp.depth_cons, StackOp.depth_nil, Int.add_zero] at first
    obtain ⟨popped, vs', c, mem, listed, ran, held⟩ := h.perform first.1 first.2
    have grown := StackOp.length_onList listed
    have performed := performCpu_of_on ran
    have later (done : List StackOp) (hd : done <+: ops) :
        vs'.length + StackOp.depth done = vs.length + StackOp.depth (op :: done) := by
      rw [StackOp.depth_cons, grown, Int.add_assoc]
    -- the rest runs on a stack that holds `vs'`, and its depths count from there
    have rest := ih (m := { m with cpu := c, bus := mem }) held (by
      intro done hd
      rw [later done hd]
      exact fits (op :: done) ((List.prefix_cons_inj op).2 hd))
    obtain ⟨popped', vs'', c', mem', reach', listed', ran', grown', held', reached⟩ := rest
    refine ⟨popped :: popped', vs'', c', mem', reach', ?_, ?_, ?_, held', ?_⟩
    · rw [StackOp.onLists, listed]
      show (StackOp.onLists ops vs' >>= _) = _
      rw [listed']
      rfl
    · rw [useStack, performed]
      simp only [ran', List.map_cons]
    · rw [grown', later ops (List.prefix_refl ops)]
    · intro k hk below
      apply reached
      · have here := below [op] ⟨ops, rfl⟩
        rw [StackOp.depth_cons, StackOp.depth_nil, Int.add_zero, ← grown] at here
        omega
      · intro done hd
        rw [later done hd]
        exact below (op :: done) ((List.prefix_cons_inj op).2 hd)

theorem stackAccesses_page_one (ops : List StackOp) (m : Machine β ω) :
    ∀ a ∈ m.stackAccesses ops, a.kind = .write → highByte a.addr = 1 := by
  induction ops generalizing m with
  | nil => simp [stackAccesses]
  | cons op ops ih =>
    intro a ha
    rcases List.mem_append.1 ha with here | later
    · exact op.writes_page_one m.cpu m.bus a here
    · exact ih _ a later

/-- The stack gives back what a list gives back, whatever the stack pointer was at first and however
pushes and pops of bytes and words are mixed, as long as the depth stays within the 256 cells of page
one. Behind every operation the stack pointer stands as far below its first value as the stack is
deep; no other register has changed, and no cell outside of page one or deeper than the stack has
ever been. -/
theorem stack_is_list (m : Machine Memory ω) {ops done : List StackOp} (h : StackOp.Fits ops)
    (hd : done <+: ops) :
    let sp := m.cpu.regs.sp
    let run := m.useStack done
    ∃ given vs, StackOp.onLists done [] = some (given, vs) ∧ run.1 = given.map .ok ∧
      vs.length = StackOp.depth done ∧
      run.2.cpu.regs.sp.toNat = (sp.toNat - StackOp.depth done) % 256 ∧
      run.2 = { m with cpu := m.cpu.setSp run.2.cpu.regs.sp, bus := run.2.bus } ∧
      (∀ a ∈ m.stackAccesses done, a.kind = .write → highByte a.addr = 1) ∧
      (∀ addr, highByte addr ≠ 1 → run.2.bus.read addr = m.bus.read addr) ∧
      ∀ j : Nat, j < 256 → (∀ before, before <+: done → StackOp.depth before ≤ j) →
        run.2.bus.read (Cpu.stackAddr (sp - UInt8.ofNat j)) =
          m.bus.read (Cpu.stackAddr (sp - UInt8.ofNat j)) := by
  intro sp run
  have fits : ∀ before, before <+: done → 0 ≤ ([] : List Byte).length + StackOp.depth before ∧
      ([] : List Byte).length + StackOp.depth before ≤ 256 := by
    simpa [StackOp.Fits] using h.of_prefix hd
  obtain ⟨given, vs, c, mem, reach, listed, ran, depth, held, reached⟩ :=
    useStack_of_stacks (.nil m.cpu m.bus) fits
  rw [List.length_nil, Int.natCast_zero, Int.zero_add] at depth
  have left : run = (given.map .ok, { m with cpu := c, bus := mem }) := ran
  rw [left]
  refine ⟨given, vs, listed, rfl, depth, ?_, ?_, stackAccesses_page_one done m, ?_, ?_⟩
  · show (c.regs.sp.toNat : Int) = (m.cpu.regs.sp.toNat - StackOp.depth done) % 256
    have below := m.cpu.regs.sp.toNat_lt
    rw [← depth, held.sp_eq, UInt8.toNat_sub, UInt8.toNat_ofNat']
    omega
  · show ({ m with cpu := c, bus := mem } : Machine Memory ω) = _
    rw [held.sp_eq, ← held.cpu]
  · intro addr outside
    exact held.sameBut.outside outside
  -- the cell lies deeper than the stack has ever been
  · intro j hj unreached
    have unused : reach ≤ j := reached j (Nat.zero_le j) (by simpa using unreached)
    apply held.sameBut
    rintro ⟨i, hi, same⟩
    rw [Cpu.stackAddr_inj, Cpu.sub_ofNat_inj hj (by omega)] at same
    omega

/-- A stack pointer from which the third byte wraps to the top of page one. -/
def shallow : Machine Memory Empty where
  cpu := { regs := { a := 0x11, sp := 0x01, pc := 0x8000 } }
  bus := Memory.zero.write 0x0200 0xBB

/-- Half of a word is popped as a byte, two bytes are popped as a word, and a byte is left. -/
theorem shallow_is_list :
    let ops : List StackOp := [.pushWord 0xABCD, .pop, .push 0x12, .push 0x34, .popWord]
    let run := shallow.useStack ops
    StackOp.Fits ops ∧
      run.1 = [.ok .nothing, .ok (.byte 0xCD), .ok .nothing, .ok .nothing, .ok (.word 0x1234)] ∧
      run.2.cpu.regs.sp.toNat = (0 : Int) ∧
      run.2 = { shallow with cpu := shallow.cpu.setSp run.2.cpu.regs.sp, bus := run.2.bus } ∧
      run.2.bus.read 0x0200 = 0xBB := by
  intro ops run
  have fits : StackOp.Fits ops := by decide
  obtain ⟨given, vs, listed, popped, -, sp, kept, -, outside, -⟩ :=
    stack_is_list shallow fits (List.prefix_refl ops)
  obtain ⟨rfl, rfl⟩ := Prod.mk.inj (Option.some.inj listed)
  refine ⟨fits, popped, ?_, kept, ?_⟩
  · rw [sp]
    rfl
  · rw [outside 0x0200 (by decide)]
    exact Memory.read_write_self ..

end Machine

end Mos6502
