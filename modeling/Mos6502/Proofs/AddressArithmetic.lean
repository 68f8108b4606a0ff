import Mos6502.Proofs.PlainStep

namespace Mos6502

/-- The number in cell `n`. There are no cells but from 0 to 65535. -/
def Memory.cell (mem : Memory) (n : Int) : Int :=
  if 0 ≤ n ∧ n < 65536 then (mem.read (UInt16.ofInt n)).toNat else 0

/-- The address in integers, for an instruction at `pc` and index registers `x` and `y`, if `m n` is the
number in cell `n`. -/
def Mode.address (m : Int → Int) (pc x y : Int) (mode : Mode) : Option Int :=
  let b := m ((pc + 1) % 65536)
  let w := b + 256 * m ((pc + 2) % 65536)
  match mode with
  | .implicit | .accumulator => none
  | .immediate => some ((pc + 1) % 65536)
  | .zeroPage => some b
  | .zeroPageX => some ((b + x) % 256)
  | .zeroPageY => some ((b + y) % 256)
  | .relative => some ((pc + 2 + b - if 128 ≤ b then 256 else 0) % 65536)
  | .absolute => some w
  | .absoluteX => some ((w + x) % 65536)
  | .absoluteY => some ((w + y) % 65536)
  | .indirect => some (m w + 256 * m ((w + 1) % 65536))
  | .indirectX =>
    let p := (b + x) % 256
    some (m p + 256 * m (p + 1))
  | .indirectY => some ((m b + 256 * m (b + 1) + y) % 65536)

section Integers

variable (addr : Addr) (b : Byte) (mem : Memory)

theorem toNat_next : ((addr + 1).toNat : Int) = (addr.toNat + 1) % 65536 := by
  have sum : (addr + 1).toNat = (addr.toNat + 1) % 65536 := UInt16.toNat_add addr 1
  omega

theorem toNat_skip : ((addr + 2).toNat : Int) = (addr.toNat + 2) % 65536 := by
  have sum : (addr + 2).toNat = (addr.toNat + 2) % 65536 := UInt16.toNat_add addr 2
  omega

theorem toNat_pageZero : (pageZero b).toNat = b.toNat := UInt8.toNat_toUInt16 b

theorem toNat_pageZero_add (index : Byte) :
    ((pageZero (b + index)).toNat : Int) = (b.toNat + index.toNat) % 256 := by
  rw [toNat_pageZero, UInt8.toNat_add]
  omega

theorem toNat_add_index (index : Byte) :
    ((addr + index.toUInt16).toNat : Int) = (addr.toNat + index.toNat) % 65536 := by
  rw [UInt16.toNat_add, UInt8.toNat_toUInt16]
  omega

theorem toNat_displace : ((displace addr b).toNat : Int) =
    (addr.toNat + b.toNat - if 128 ≤ b.toNat then 256 else 0) % 65536 := by
  unfold displace signed
  rw [UInt16.ofInt, UInt16.toNat_ofNat']
  split <;> split <;> omega

namespace Memory

theorem cell_toNat : mem.cell addr.toNat = (mem.read addr).toNat := by
  have small := addr.toNat_lt
  have same : UInt16.ofInt addr.toNat = addr := by
    apply UInt16.toNat_inj.1
    rw [UInt16.ofInt, UInt16.toNat_ofNat']
    omega
  rw [cell, if_pos (by omega), same]

theorem toNat_readWord : ((mem.readWord addr).toNat : Int) =
    mem.cell addr.toNat + 256 * mem.cell ((addr.toNat + 1) % 65536) := by
  rw [readWord, word_toNat, ← toNat_next, cell_toNat, cell_toNat]
  omega

/-- A pointer in page zero may end in page one, but not at the end of the address space. -/
theorem toNat_readWord_pageZero : ((mem.readWord (pageZero b)).toNat : Int) =
    mem.cell b.toNat + 256 * mem.cell (b.toNat + 1) := by
  have small := b.toNat_lt
  have inside : ((b.toNat : Int) + 1) % 65536 = b.toNat + 1 := by omega
  rw [toNat_readWord, toNat_pageZero, inside]

end Memory

end Integers

namespace Mode

theorem effective_eq_address (mode : Mode) (r : Registers) (mem : Memory) :
    (mode.effective mem r).map (fun addr => (addr.toNat : Int)) =
      mode.address mem.cell r.pc.toNat r.x.toNat r.y.toNat := by
  -- the two numbers that all modes are made of
  have byte : mem.cell ((r.pc.toNat + 1) % 65536) = (mem.read (r.pc + 1)).toNat := by
    rw [← toNat_next, Memory.cell_toNat]
  have word : (mem.read (r.pc + 1)).toNat + 256 * mem.cell ((r.pc.toNat + 2) % 65536) =
      (mem.readWord (r.pc + 1)).toNat := by
    have next : ((r.pc + 1).toNat + 1 : Int) % 65536 = (r.pc.toNat + 2) % 65536 := by
      rw [toNat_next]
      omega
    rw [Memory.toNat_readWord, next, toNat_next, byte]
  unfold address
  simp only [byte, word]
  cases mode with
  | implicit | accumulator => rfl
  | immediate => exact congrArg some (toNat_next r.pc)
  | zeroPage => rfl
  | zeroPageX | zeroPageY => exact congrArg some (toNat_pageZero_add _ _)
  | relative =>
    have reached := toNat_displace (r.pc + 2) (mem.read (r.pc + 1))
    rw [toNat_skip] at reached
    apply congrArg some
    refine reached.trans ?_
    split <;> split <;> omega
  | absolute => rfl
  | absoluteX | absoluteY => exact congrArg some (toNat_add_index _ _)
  | indirect => exact congrArg some (Memory.toNat_readWord _ _)
  | indirectX =>
    have pointed := Memory.toNat_readWord_pageZero (mem.read (r.pc + 1) + r.x) mem
    rw [← toNat_pageZero, toNat_pageZero_add] at pointed
    exact congrArg some pointed
  | indirectY =>
    have indexed := toNat_add_index (mem.readWord (pageZero (mem.read (r.pc + 1)))) r.y
    rw [Memory.toNat_readWord_pageZero] at indexed
    exact congrArg some indexed

theorem resolve_on {σ : Type} (mode : Mode) (r : Registers) (s : σ) (mem : Memory) :
    (mode.resolve r).on s mem = ⟨.ok (mode.effective mem r), s, mem, []⟩ := by
  cases mode <;> rfl

theorem effective_eq_none_iff (mode : Mode) (r : Registers) (mem : Memory) :
    mode.effective mem r = none ↔ mode = .implicit ∨ mode = .accumulator := by
  cases mode <;> simp [effective]

/-- On plain memory, with whatever contents, resolving finds no address in the implicit and the
accumulator mode, and in all others the one that integer arithmetic gives. It changes nothing. -/
theorem resolve_finds_address {σ : Type} (mode : Mode) (r : Registers) (s : σ) (mem : Memory) :
    ∃ target, (mode.resolve r).on s mem = ⟨.ok target, s, mem, []⟩ ∧
      (target = none ↔ mode = .implicit ∨ mode = .accumulator) ∧
      target.map (fun addr => (addr.toNat : Int)) =
        mode.address mem.cell r.pc.toNat r.x.toNat r.y.toNat :=
  ⟨mode.effective mem r, resolve_on mode r s mem, effective_eq_none_iff mode r mem,
    effective_eq_address mode r mem⟩

/-- The operand lies across the top of the address space and is the low byte of its own pointer. -/
example : Mode.indirectY.address (fun n => if n = 0 then 0x00 else 0x12) 0xFFFF 0 0xFF =
    some 0x12FF := by decide

end Mode

end Mos6502
