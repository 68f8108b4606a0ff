import Mos6502.Arithmetic
import Mos6502.Resolve
import Mos6502.Service

namespace Mos6502.Cpu

def need (i : Instruction) (target : Option Addr) : Micro Cpu Addr := do
  match target with
  | some addr => return addr
  | none => Micro.fail (.noTarget i.mnemonic i.mode (← get).regs.pc)

def operand (i : Instruction) (target : Option Addr) : Micro Cpu Byte := do
  Micro.read (← need i target)

/-- Writes back what `f` makes of the byte at the target, and then lets `effect` act on the registers. -/
def update (i : Instruction) (target : Option Addr) (f : Registers → Byte → Byte)
    (effect : Registers → Byte → Registers) : Micro Cpu Unit := do
  let addr ← need i target
  let v ← Micro.read addr
  let r := (← get).regs
  Micro.write addr (f r v)
  modifyRegs (effect · v)

def shift (i : Instruction) (target : Option Addr) (s : Shift) : Micro Cpu Unit :=
  if i.mode = .accumulator then
    modifyRegs fun r =>
      let (v, out) := s.apply r.a r.flags.carry
      (r.setCarry out).load .a v
  else
    update i target (fun r v => (s.apply v r.flags.carry).1) fun r v =>
      let (w, out) := s.apply v r.flags.carry
      (r.setCarry out).describe w

/-- What `i` does to registers and memory. Loading the program counter holds it; all else leaves it to
`advance`. Nothing changes before the last access that can fault, but for the stack pointer, which
moves with each push and pop, and the flags that a return from interrupt pops first. -/
def execute (i : Instruction) (target : Option Addr) : Micro Cpu Unit :=
  match i.mnemonic.operation with
  | .load reg => do
    let m ← operand i target
    modifyRegs (·.load reg m)
  | .store reg => do
    let addr ← need i target
    Micro.write addr ((← get).regs.get reg)
  | .add => do
    let m ← operand i target
    modifyRegs (·.add m)
  | .subtract => do
    let m ← operand i target
    modifyRegs (·.subtract m)
  | .logic op => do
    let m ← operand i target
    modifyRegs fun r => r.load .a (op.apply r.a m)
  | .compare reg => do
    let m ← operand i target
    modifyRegs (·.compare reg m)
  | .shift s => shift i target s
  | .bumpMemory d => update i target (fun _ v => v + d) fun r v => r.describe (v + d)
  | .bump reg d => modifyRegs fun r => r.load reg (r.get reg + d)
  | .branch flag value => do
    if (← get).regs.flags.get flag = value then
      jump (← need i target)
  | .jump => do jump (← need i target)
  | .call => do
    let addr ← need i target
    pushWord ((← get).regs.pc + UInt16.ofNat i.size - 1)
    jump addr
  | .ret => do jump ((← popWord) + 1)
  | .returnFromInterrupt => do
    let p ← pop
    modifyRegs (·.setFlags (Flags.ofByte p))
    jump (← popWord)
  | .brk => do let _ ← request .brk
  | .setFlag flag value => modifyRegs fun r => r.setFlags (r.flags.set flag value)
  | .transfer source target => modifyRegs (·.transfer source target)
  | .nop => return
  | .unsupported => do Micro.fail (.notImplemented i (← get).regs.pc)

def fetch (opcode : Byte) (c : Cpu) : Cpu := { c with fetched := opcode }

def take (i : Instruction) (c : Cpu) : Cpu := { c with current := some i }

def complete (i : Instruction) (c : Cpu) : Cpu :=
  let c := c.advance i
  { c with executed := c.executed + 1 }

/-- One instruction, from the fetch to the count. The target is resolved even if the instruction turns
out not to need it. Gives what observers are to see. -/
def instruction : Micro Cpu View := do
  let pc := (← get).regs.pc
  let opcode ← Micro.read pc
  modify (fetch opcode)
  match Instruction.decode opcode with
  | none => Micro.fail (.undocumented opcode pc)
  | some i =>
    modify (take i)
    let target ← i.mode.resolve (← get).regs
    execute i target
    modify (complete i)
    let c ← get
    Micro.log (.completed pc i c.regs)
    return ⟨c.regs, i, c.executed⟩

/-- What follows an instruction: the interrupt line is polled, and what is latched is serviced. -/
def settle : Micro Cpu Unit := do
  if ← Micro.poll then
    let _ ← request .irq
  service

end Mos6502.Cpu
