import Mos6502.Bus

namespace Mos6502

/-- `2 ^ n` bytes, the leaves of a complete binary tree. A write builds one path anew, so older
versions stay intact and cost little to keep. -/
inductive Cells : Nat → Type where
  | cell (v : Byte) : Cells 0
  | node {n : Nat} (left right : Cells n) : Cells (n + 1)
  deriving DecidableEq

namespace Cells

def fill (v : Byte) : (n : Nat) → Cells n
  | 0 => .cell v
  | n + 1 => .node (fill v n) (fill v n)

/-- The low `n` bits of the index choose the way, the highest of them first. -/
def get : {n : Nat} → Cells n → Nat → Byte
  | _, .cell v, _ => v
  | n + 1, .node l r, i => if i.testBit n then r.get i else l.get i

def set : {n : Nat} → Cells n → Nat → Byte → Cells n
  | _, .cell _, _, v => .cell v
  | n + 1, .node l r, i, v => if i.testBit n then .node l (r.set i v) else .node (l.set i v) r

def toList : {n : Nat} → Cells n → List Byte
  | _, .cell v => [v]
  | _, .node l r => l.toList ++ r.toList

/-- The indices at which `after` differs from `before`, with the bytes there, in front of `rest`;
`high` holds the bits of the index above these cells. -/
def changes : {n : Nat} → (before after : Cells n) → (high : Nat) → List (Nat × Byte) →
    List (Nat × Byte)
  | _, .cell v, .cell w, high, rest => if v = w then rest else (high, w) :: rest
  | _, .node l r, .node l' r', high, rest =>
    l.changes l' (2 * high) (r.changes r' (2 * high + 1) rest)

theorem get_fill (v : Byte) : ∀ (n i : Nat), (fill v n).get i = v
  | 0, _ => rfl
  | n + 1, i => by simp [fill, get, get_fill v n]

theorem get_congr : ∀ {n : Nat} (c : Cells n) {i j : Nat},
    (∀ k < n, i.testBit k = j.testBit k) → c.get i = c.get j
  | _, .cell _, _, _, _ => rfl
  | n + 1, .node l r, i, j, h => by
    have hl := get_congr l fun k hk => h k (Nat.lt_succ_of_lt hk)
    have hr := get_congr r fun k hk => h k (Nat.lt_succ_of_lt hk)
    simp only [get, h n (Nat.lt_succ_self n), hl, hr]

theorem get_set_self : ∀ {n : Nat} (c : Cells n) (v : Byte) (i : Nat), (c.set i v).get i = v
  | _, .cell _, _, _ => rfl
  | n + 1, .node l r, v, i => by
    by_cases h : i.testBit n <;> simp [set, get, h, get_set_self]

theorem get_set_of_ne : ∀ {n : Nat} (c : Cells n) (v : Byte) {i j k : Nat}, k < n →
    j.testBit k ≠ i.testBit k → (c.set i v).get j = c.get j
  | n + 1, .node l r, v, i, j, k, hk, h => by
    rcases Nat.lt_succ_iff_lt_or_eq.1 hk with hk' | rfl
    · have hl := get_set_of_ne l v hk' h
      have hr := get_set_of_ne r v hk' h
      by_cases hi : i.testBit n <;> simp [set, get, hi, hl, hr]
    · cases hi : i.testBit k <;> cases hj : j.testBit k <;> simp_all [set, get]

theorem ext_get : ∀ {n : Nat} {c d : Cells n}, (∀ i, c.get i = d.get i) → c = d
  | _, .cell v, .cell w, h => by
    have := h 0
    simp only [get] at this
    rw [this]
  | n + 1, .node l r, .node l' r', h => by
    have low (i k : Nat) (hk : k < n) : (i % 2 ^ n).testBit k = i.testBit k := by
      simp [Nat.testBit_mod_two_pow, hk]
    have high (i k : Nat) (hk : k < n) : (2 ^ n + i % 2 ^ n).testBit k = i.testBit k := by
      rw [Nat.testBit_two_pow_add_gt hk, low i k hk]
    have hl : l = l' := ext_get fun i => by
      have := h (i % 2 ^ n)
      simp only [get, Nat.testBit_mod_two_pow, Nat.lt_irrefl, decide_false, Bool.false_and] at this
      simpa [get_congr l (low i), get_congr l' (low i)] using this
    have hr : r = r' := ext_get fun i => by
      have := h (2 ^ n + i % 2 ^ n)
      simp only [get, Nat.testBit_two_pow_add_eq, Nat.testBit_mod_two_pow, Nat.lt_irrefl,
        decide_false, Bool.false_and, Bool.not_false, if_true] at this
      rwa [get_congr r (high i), get_congr r' (high i)] at this
    rw [hl, hr]

end Cells

structure Memory where
  cells : Cells 16
  deriving DecidableEq

namespace Memory

def zero : Memory := ⟨Cells.fill 0 16⟩

instance : Inhabited Memory := ⟨zero⟩

def read (m : Memory) (addr : Addr) : Byte := m.cells.get addr.toNat

def write (m : Memory) (addr : Addr) (v : Byte) : Memory := ⟨m.cells.set addr.toNat v⟩

instance : Bus Memory where
  read m addr := (.ok (m.read addr), m)
  write m addr v := (.ok (), m.write addr v)
  peek := read
  poll m := (.ok false, m)

/-- The little-endian word at `addr`; its high byte may lie across the top of the address space. -/
def readWord (m : Memory) (addr : Addr) : Addr := word (m.read addr) (m.read (addr + 1))

def writeWord (m : Memory) (addr w : Addr) : Memory :=
  (m.write addr (lowByte w)).write (addr + 1) (highByte w)

/-- `m` with `bytes` stored from `addr` on, wrapping at the top. -/
def store (m : Memory) (addr : Addr) : List Byte → Memory
  | [] => m
  | v :: bytes => (m.write addr v).store (addr + 1) bytes

def bytes (m : Memory) (addr : Addr) : (count : Nat) → List Byte
  | 0 => []
  | count + 1 => m.read addr :: m.bytes (addr + 1) count

def toList (m : Memory) : List Byte := m.cells.toList

def changes (before after : Memory) : List (Nat × Byte) := before.cells.changes after.cells 0 []

@[simp] theorem read_zero (addr : Addr) : zero.read addr = 0 := Cells.get_fill 0 16 addr.toNat

theorem read_write (m : Memory) (addr other : Addr) (v : Byte) :
    (m.write addr v).read other = if other = addr then v else m.read other := by
  split
  · subst other
    exact Cells.get_set_self m.cells v addr.toNat
  · rename_i hne
    have hk : ∃ k, other.toNat.testBit k ≠ addr.toNat.testBit k := by
      refine Classical.byContradiction fun h => hne (UInt16.toNat_inj.1 (Nat.eq_of_testBit_eq ?_))
      exact fun k => Classical.byContradiction fun hk => h ⟨k, hk⟩
    obtain ⟨k, hk⟩ := hk
    refine Cells.get_set_of_ne m.cells v (Nat.lt_of_not_le fun hle => hk ?_) hk
    have top (a : Addr) : a.toNat.testBit k = false :=
      Nat.testBit_lt_two_pow (Nat.lt_of_lt_of_le a.toNat_lt (Nat.pow_le_pow_right (by decide) hle))
    rw [top, top]

@[simp] theorem read_write_self (m : Memory) (addr : Addr) (v : Byte) :
    (m.write addr v).read addr = v := by simp [read_write]

theorem ext_read {m m' : Memory} (h : ∀ addr, m.read addr = m'.read addr) : m = m' := by
  have hc : m.cells = m'.cells := Cells.ext_get fun i => by
    have low (k : Nat) (hk : k < 16) : (UInt16.ofNat i).toNat.testBit k = i.testBit k := by
      rw [UInt16.toNat_ofNat', Nat.testBit_mod_two_pow]
      simp [hk]
    rw [← Cells.get_congr m.cells low, ← Cells.get_congr m'.cells low]
    exact h (UInt16.ofNat i)
  cases m
  cases m'
  simp_all

@[simp] theorem bus_read (m : Memory) (addr : Addr) : Bus.read m addr = (.ok (m.read addr), m) := rfl

@[simp] theorem bus_write (m : Memory) (addr : Addr) (v : Byte) :
    Bus.write m addr v = (.ok (), m.write addr v) := rfl

@[simp] theorem bus_peek (m : Memory) (addr : Addr) : Bus.peek m addr = m.read addr := rfl

@[simp] theorem bus_poll (m : Memory) : Bus.poll m = (.ok false, m) := rfl

end Memory

end Mos6502
