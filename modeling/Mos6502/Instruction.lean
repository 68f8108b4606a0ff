import Mos6502.Mnemonic
import Mos6502.Mode
import Mos6502.Word

namespace Mos6502

def Mnemonic.encodings : Mnemonic → List (Mode × Byte)
  | .ADC =>
    [(.immediate, 0x69), (.zeroPage, 0x65), (.zeroPageX, 0x75), (.absolute, 0x6D),
      (.absoluteX, 0x7D), (.absoluteY, 0x79), (.indirectX, 0x61), (.indirectY, 0x71)]
  | .AND =>
    [(.immediate, 0x29), (.zeroPage, 0x25), (.zeroPageX, 0x35), (.absolute, 0x2D),
      (.absoluteX, 0x3D), (.absoluteY, 0x39), (.indirectX, 0x21), (.indirectY, 0x31)]
  | .ASL =>
    [(.accumulator, 0x0A), (.zeroPage, 0x06), (.zeroPageX, 0x16), (.absolute, 0x0E),
      (.absoluteX, 0x1E)]
  | .BCC => [(.relative, 0x90)]
  | .BCS => [(.relative, 0xB0)]
  | .BEQ => [(.relative, 0xF0)]
  | .BIT => [(.zeroPage, 0x24), (.absolute, 0x2C)]
  | .BMI => [(.relative, 0x30)]
  | .BNE => [(.relative, 0xD0)]
  | .BPL => [(.relative, 0x10)]
  | .BRK => [(.implicit, 0x00)]
  | .BVC => [(.relative, 0x50)]
  | .BVS => [(.relative, 0x70)]
  | .CLC => [(.implicit, 0x18)]
  | .CLD => [(.implicit, 0xD8)]
  | .CLI => [(.implicit, 0x58)]
  | .CLV => [(.implicit, 0xB8)]
  | .CMP =>
    [(.immediate, 0xC9), (.zeroPage, 0xC5), (.zeroPageX, 0xD5), (.absolute, 0xCD),
      (.absoluteX, 0xDD), (.absoluteY, 0xD9), (.indirectX, 0xC1), (.indirectY, 0xD1)]
  | .CPX => [(.immediate, 0xE0), (.zeroPage, 0xE4), (.absolute, 0xEC)]
  | .CPY => [(.immediate, 0xC0), (.zeroPage, 0xC4), (.absolute, 0xCC)]
  | .DEC => [(.zeroPage, 0xC6), (.zeroPageX, 0xD6), (.absolute, 0xCE), (.absoluteX, 0xDE)]
  | .DEX => [(.implicit, 0xCA)]
  | .DEY => [(.implicit, 0x88)]
  | .EOR =>
    [(.immediate, 0x49), (.zeroPage, 0x45), (.zeroPageX, 0x55), (.absolute, 0x4D),
      (.absoluteX, 0x5D), (.absoluteY, 0x59), (.indirectX, 0x41), (.indirectY, 0x51)]
  | .INC => [(.zeroPage, 0xE6), (.zeroPageX, 0xF6), (.absolute, 0xEE), (.absoluteX, 0xFE)]
  | .INX => [(.implicit, 0xE8)]
  | .INY => [(.implicit, 0xC8)]
  | .JMP => [(.absolute, 0x4C), (.indirect, 0x6C)]
  | .JSR => [(.absolute, 0x20)]
  | .LDA =>
    [(.immediate, 0xA9), (.zeroPage, 0xA5), (.zeroPageX, 0xB5), (.absolute, 0xAD),
      (.absoluteX, 0xBD), (.absoluteY, 0xB9), (.indirectX, 0xA1), (.indirectY, 0xB1)]
  | .LDX =>
    [(.immediate, 0xA2), (.zeroPage, 0xA6), (.zeroPageY, 0xB6), (.absolute, 0xAE),
      (.absoluteY, 0xBE)]
  | .LDY =>
    [(.immediate, 0xA0), (.zeroPage, 0xA4), (.zeroPageX, 0xB4), (.absolute, 0xAC),
      (.absoluteX, 0xBC)]
  | .LSR =>
    [(.accumulator, 0x4A), (.zeroPage, 0x46), (.zeroPageX, 0x56), (.absolute, 0x4E),
      (.absoluteX, 0x5E)]
  | .NOP => [(.implicit, 0xEA)]
  | .ORA =>
    [(.immediate, 0x09), (.zeroPage, 0x05), (.zeroPageX, 0x15), (.absolute, 0x0D),
      (.absoluteX, 0x1D), (.absoluteY, 0x19), (.indirectX, 0x01), (.indirectY, 0x11)]
  | .PHA => [(.implicit, 0x48)]
  | .PHP => [(.implicit, 0x08)]
  | .PLA => [(.implicit, 0x68)]
  | .PLP => [(.implicit, 0x28)]
  | .ROL =>
    [(.accumulator, 0x2A), (.zeroPage, 0x26), (.zeroPageX, 0x36), (.absolute, 0x2E),
      (.absoluteX, 0x3E)]
  | .ROR =>
    [(.accumulator, 0x6A), (.zeroPage, 0x66), (.zeroPageX, 0x76), (.absolute, 0x6E),
      (.absoluteX, 0x7E)]
  | .RTI => [(.implicit, 0x40)]
  | .RTS => [(.implicit, 0x60)]
  | .SBC =>
    [(.immediate, 0xE9), (.zeroPage, 0xE5), (.zeroPageX, 0xF5), (.absolute, 0xED),
      (.absoluteX, 0xFD), (.absoluteY, 0xF9), (.indirectX, 0xE1), (.indirectY, 0xF1)]
  | .SEC => [(.implicit, 0x38)]
  | .SED => [(.implicit, 0xF8)]
  | .SEI => [(.implicit, 0x78)]
  | .STA =>
    [(.zeroPage, 0x85), (.zeroPageX, 0x95), (.absolute, 0x8D), (.absoluteX, 0x9D),
      (.absoluteY, 0x99), (.indirectX, 0x81), (.indirectY, 0x91)]
  | .STX => [(.zeroPage, 0x86), (.zeroPageY, 0x96), (.absolute, 0x8E)]
  | .STY => [(.zeroPage, 0x84), (.zeroPageX, 0x94), (.absolute, 0x8C)]
  | .TAX => [(.implicit, 0xAA)]
  | .TAY => [(.implicit, 0xA8)]
  | .TSX => [(.implicit, 0xBA)]
  | .TXA => [(.implicit, 0x8A)]
  | .TXS => [(.implicit, 0x9A)]
  | .TYA => [(.implicit, 0x98)]

structure Instruction where
  opcode : Byte
  mnemonic : Mnemonic
  mode : Mode
  deriving DecidableEq, Repr

namespace Instruction

def size (i : Instruction) : Nat := i.mode.size

def documented : List Instruction :=
  Mnemonic.all.flatMap fun m => m.encodings.map fun (mode, opcode) => ⟨opcode, m, mode⟩

/-- The instruction of an opcode; none for an undocumented one. -/
def decode (opcode : Byte) : Option Instruction :=
  documented.find? fun i => i.opcode == opcode

theorem documented_length : documented.length = 151 := by decide +kernel

theorem documented_opcodes_nodup : (documented.map opcode).Nodup := by decide +kernel

theorem opcode_injective : ∀ {is : List Instruction}, (is.map opcode).Nodup →
    ∀ {i j}, i ∈ is → j ∈ is → i.opcode = j.opcode → i = j
  | [], _, _, _, hi, _, _ => by simp at hi
  | k :: is, h, i, j, hi, hj, e => by
    rw [List.map_cons, List.nodup_cons] at h
    rcases List.mem_cons.1 hi with hi' | hi' <;> rcases List.mem_cons.1 hj with hj' | hj'
    · rw [hi', hj']
    · exact absurd (List.mem_map.2 ⟨j, hj', by rw [← e, hi']⟩) h.1
    · exact absurd (List.mem_map.2 ⟨i, hi', by rw [e, hj']⟩) h.1
    · exact opcode_injective h.2 hi' hj' e

theorem decode_eq_some_iff {opcode : Byte} {i : Instruction} :
    decode opcode = some i ↔ i ∈ documented ∧ i.opcode = opcode := by
  constructor
  · intro h
    exact ⟨List.mem_of_find?_eq_some h, by simpa using List.find?_some h⟩
  · rintro ⟨hi, rfl⟩
    have hs : (decode i.opcode).isSome := List.find?_isSome.2 ⟨i, hi, by simp⟩
    obtain ⟨j, hj⟩ := Option.isSome_iff_exists.1 hs
    have e : j.opcode = i.opcode := by simpa using List.find?_some hj
    rw [hj, opcode_injective documented_opcodes_nodup (List.mem_of_find?_eq_some hj) hi e]

theorem decode_eq_none_iff {opcode : Byte} :
    decode opcode = none ↔ ∀ i ∈ documented, i.opcode ≠ opcode := by
  simp [decode, List.find?_eq_none]

theorem opcode_of_decode {opcode : Byte} {i : Instruction} (h : decode opcode = some i) :
    i.opcode = opcode :=
  (decode_eq_some_iff.1 h).2

end Instruction

end Mos6502
