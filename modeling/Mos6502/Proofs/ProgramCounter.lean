import Mos6502.Proofs.AddressArithmetic
import Mos6502.Proofs.RequestLedger

namespace Mos6502

/-- The flag that a branch looks at, and the value for which it is taken. -/
def Mnemonic.condition : Mnemonic → Option (Flag × Bool)
  | .BCC => some (.carry, false)
  | .BCS => some (.carry, true)
  | .BNE => some (.zero, false)
  | .BEQ => some (.zero, true)
  | .BPL => some (.negative, false)
  | .BMI => some (.negative, true)
  | .BVC => some (.overflow, false)
  | .BVS => some (.overflow, true)
  | _ => none

theorem Instruction.mode_of_condition {opcode : Byte} {i : Instruction}
    (h : decode opcode = some i) (hc : i.mnemonic.condition.isSome) : i.mode = .relative := by
  have all : ∀ j ∈ documented, j.mnemonic.condition.isSome → j.mode = .relative := by
    decide +kernel
  exact all i (decode_eq_some_iff.1 h).1 hc

namespace Cpu

/-- Where `i` leads if it loads the program counter, begun in `c` on the memory `mem`: jumps and calls
to the address they work on, returns to the address on the stack or behind it, and a branch that is
taken to the signed distance from the instruction behind it. -/
def destination (c : Cpu) (mem : Memory) (i : Instruction) : Option Int :=
  let r := c.regs
  let pc : Int := r.pc.toNat
  let stacked (k : Int) := mem.cell (256 + (r.sp.toNat + k) % 256)
  match i.mnemonic with
  | .JMP | .JSR => i.mode.address mem.cell pc r.x.toNat r.y.toNat
  | .RTS => some ((stacked 1 + 256 * stacked 2 + 1) % 65536)
  | .RTI => some (stacked 2 + 256 * stacked 3)
  | mnemonic => mnemonic.condition.bind fun (flag, value) =>
    let offset := mem.cell ((pc + 1) % 65536)
    if r.flags.get flag = value then
      some ((pc + 2 + offset - if 128 ≤ offset then 256 else 0) % 65536)
    else
      none

/-- Where the program counter is behind `i`, if `i` does not load it. -/
def behind (c : Cpu) (i : Instruction) : Addr :=
  if c.holdPc then c.regs.pc else c.regs.pc + UInt16.ofNat i.size

theorem regs_complete (c : Cpu) (i : Instruction) :
    (c.complete i).regs = c.regs.setPc (c.behind i) := by
  unfold complete advance behind
  split <;> rfl

theorem behind_mapRegs (c : Cpu) {f : Registers → Registers} (hf : (f c.regs).pc = c.regs.pc)
    (i : Instruction) : (c.mapRegs f).behind i = c.behind i := by
  simp only [behind, mapRegs, hf]

end Cpu

def Operation.destination (op : Operation) (c : Cpu) (mem : Memory) (target : Option Addr) :
    Option Addr :=
  let stacked (k : Byte) := mem.read (Cpu.stackAddr (c.regs.sp + k))
  match op with
  | .jump | .call => target
  | .ret => some (word (stacked 1) (stacked 2) + 1)
  | .returnFromInterrupt => some (word (stacked 2) (stacked 3))
  | .branch flag value => if c.regs.flags.get flag = value then target else none
  | _ => none

namespace Registers

variable (r : Registers)

@[simp] theorem pc_load (reg : Reg) (v : Byte) : (r.load reg v).pc = r.pc := by
  simp [load, describe]

@[simp] theorem pc_transfer (source target : Reg) : (r.transfer source target).pc = r.pc := by
  unfold transfer
  split <;> simp

end Registers

namespace Cpu

/-- One case for each way to carry out an operation: it loads the program counter and holds it, or
touches neither. -/
theorem Performs.pc {i : Instruction} {target : Option Addr} {c c' : Cpu} {op : Operation}
    {es : List Event} (h : Performs i target c op es c') {mem mem' : Memory}
    (ha : Answers mem es mem') :
    (c'.complete i).regs.pc = (op.destination c mem target).getD (c.behind i) := by
  rw [regs_complete, Registers.pc_setPc]
  cases h with
  | branchTaken ht hf =>
    subst ht
    simp only [Operation.destination, if_pos hf, Option.getD_some]
    rfl
  | branchNotTaken hf =>
    simp only [Operation.destination, if_neg hf, Option.getD_none]
  | jump ht | call ht =>
    subst ht
    rfl
  | ret lo hi =>
    simp only [Memory.answers_read] at ha
    obtain ⟨rfl, rfl, -⟩ := ha
    rfl
  | returnFromInterrupt p lo hi =>
    simp only [Memory.answers_read] at ha
    obtain ⟨-, rfl, rfl, -⟩ := ha
    rfl
  | load | logic | bump | transfer => exact behind_mapRegs c (by simp) i
  | _ => rfl

theorem Falters.holdPc {i : Instruction} {c c' : Cpu} {op : Operation} {es : List Event}
    {why : Cut} (h : Falters i c op es c' why) : c'.holdPc = c.holdPc := by
  cases h <;> rfl

/-- A hold stands until an instruction completes, and none is made. -/
def KeepsHold (c : Cpu) (es : List Entry) (c' : Cpu) : Prop :=
  c'.holdPc = true ↔ c.holdPc = true ∧ ∀ i, .completed i ∉ es

theorem KeepsHold.of_eq {c c' : Cpu} {es : List Entry} (h : c'.holdPc = c.holdPc)
    (he : ∀ i, .completed i ∉ es) : c.KeepsHold es c' := by
  unfold KeepsHold
  rw [h]
  exact ⟨fun held => ⟨held, he⟩, And.left⟩

end Cpu

namespace Entry

end Entry

namespace Cpu

variable {β : Type} [Bus β] (c : Cpu) (b : β)

end Cpu

namespace Machine

variable {β ω : Type} [Bus β] [Observer ω]

end Machine

end Mos6502
