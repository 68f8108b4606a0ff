import Mos6502.Flags
import Mos6502.Mnemonic

namespace Mos6502

inductive Reg where
  | a | x | y | sp
  deriving DecidableEq, Repr

inductive Logic where
  | and | or | xor
  deriving DecidableEq, Repr

/-- Shifts by one place; a rotation takes the carry in, a plain shift takes a zero. -/
inductive Shift where
  | left | right | rotateLeft | rotateRight
  deriving DecidableEq, Repr

inductive Operation where
  | load (r : Reg)
  | store (r : Reg)
  | add
  | subtract
  | logic (op : Logic)
  | compare (r : Reg)
  | shift (s : Shift)
  /-- Adds `d` to the byte at the target. -/
  | bumpMemory (d : Byte)
  /-- Adds `d` to a register. -/
  | bump (r : Reg) (d : Byte)
  /-- Taken when the flag has the given value. -/
  | branch (flag : Flag) (value : Bool)
  | jump
  | call
  | ret
  | returnFromInterrupt
  | brk
  | setFlag (flag : Flag) (value : Bool)
  | transfer (source target : Reg)
  | nop
  /-- Documented, but the machine does not carry it out. -/
  | unsupported
  deriving DecidableEq, Repr

def Mnemonic.operation : Mnemonic → Operation
  | .LDA => .load .a
  | .LDX => .load .x
  | .LDY => .load .y
  | .STA => .store .a
  | .STX => .store .x
  | .STY => .store .y
  | .ADC => .add
  | .SBC => .subtract
  | .AND => .logic .and
  | .ORA => .logic .or
  | .EOR => .logic .xor
  | .CMP => .compare .a
  | .CPX => .compare .x
  | .CPY => .compare .y
  | .ASL => .shift .left
  | .LSR => .shift .right
  | .ROL => .shift .rotateLeft
  | .ROR => .shift .rotateRight
  | .INC => .bumpMemory 1
  | .DEC => .bumpMemory (-1)
  | .INX => .bump .x 1
  | .INY => .bump .y 1
  | .DEX => .bump .x (-1)
  | .DEY => .bump .y (-1)
  | .BCC => .branch .carry false
  | .BCS => .branch .carry true
  | .BNE => .branch .zero false
  | .BEQ => .branch .zero true
  | .BPL => .branch .negative false
  | .BMI => .branch .negative true
  | .BVC => .branch .overflow false
  | .BVS => .branch .overflow true
  | .JMP => .jump
  | .JSR => .call
  | .RTS => .ret
  | .RTI => .returnFromInterrupt
  | .BRK => .brk
  | .CLC => .setFlag .carry false
  | .SEC => .setFlag .carry true
  | .CLI => .setFlag .interruptDisable false
  | .SEI => .setFlag .interruptDisable true
  | .CLD => .setFlag .decimal false
  | .SED => .setFlag .decimal true
  | .CLV => .setFlag .overflow false
  | .TAX => .transfer .a .x
  | .TAY => .transfer .a .y
  | .TXA => .transfer .x .a
  | .TYA => .transfer .y .a
  | .TSX => .transfer .sp .x
  | .TXS => .transfer .x .sp
  | .NOP => .nop
  | .BIT | .PHA | .PHP | .PLA | .PLP => .unsupported

def Mnemonic.supported (m : Mnemonic) : Bool := m.operation != .unsupported

end Mos6502
