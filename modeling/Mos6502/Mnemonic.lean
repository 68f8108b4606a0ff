namespace Mos6502

inductive Mnemonic where
  | ADC | AND | ASL | BCC | BCS | BEQ | BIT | BMI | BNE | BPL | BRK | BVC | BVS | CLC | CLD | CLI
  | CLV | CMP | CPX | CPY | DEC | DEX | DEY | EOR | INC | INX | INY | JMP | JSR | LDA | LDX | LDY
  | LSR | NOP | ORA | PHA | PHP | PLA | PLP | ROL | ROR | RTI | RTS | SBC | SEC | SED | SEI | STA
  | STX | STY | TAX | TAY | TSX | TXA | TXS | TYA
  deriving DecidableEq, Repr

namespace Mnemonic

def name : Mnemonic → String
  | .ADC => "ADC"
  | .AND => "AND"
  | .ASL => "ASL"
  | .BCC => "BCC"
  | .BCS => "BCS"
  | .BEQ => "BEQ"
  | .BIT => "BIT"
  | .BMI => "BMI"
  | .BNE => "BNE"
  | .BPL => "BPL"
  | .BRK => "BRK"
  | .BVC => "BVC"
  | .BVS => "BVS"
  | .CLC => "CLC"
  | .CLD => "CLD"
  | .CLI => "CLI"
  | .CLV => "CLV"
  | .CMP => "CMP"
  | .CPX => "CPX"
  | .CPY => "CPY"
  | .DEC => "DEC"
  | .DEX => "DEX"
  | .DEY => "DEY"
  | .EOR => "EOR"
  | .INC => "INC"
  | .INX => "INX"
  | .INY => "INY"
  | .JMP => "JMP"
  | .JSR => "JSR"
  | .LDA => "LDA"
  | .LDX => "LDX"
  | .LDY => "LDY"
  | .LSR => "LSR"
  | .NOP => "NOP"
  | .ORA => "ORA"
  | .PHA => "PHA"
  | .PHP => "PHP"
  | .PLA => "PLA"
  | .PLP => "PLP"
  | .ROL => "ROL"
  | .ROR => "ROR"
  | .RTI => "RTI"
  | .RTS => "RTS"
  | .SBC => "SBC"
  | .SEC => "SEC"
  | .SED => "SED"
  | .SEI => "SEI"
  | .STA => "STA"
  | .STX => "STX"
  | .STY => "STY"
  | .TAX => "TAX"
  | .TAY => "TAY"
  | .TSX => "TSX"
  | .TXA => "TXA"
  | .TXS => "TXS"
  | .TYA => "TYA"

def all : List Mnemonic :=
  [.ADC, .AND, .ASL, .BCC, .BCS, .BEQ, .BIT, .BMI, .BNE, .BPL, .BRK, .BVC, .BVS, .CLC, .CLD,
    .CLI, .CLV, .CMP, .CPX, .CPY, .DEC, .DEX, .DEY, .EOR, .INC, .INX, .INY, .JMP, .JSR, .LDA,
    .LDX, .LDY, .LSR, .NOP, .ORA, .PHA, .PHP, .PLA, .PLP, .ROL, .ROR, .RTI, .RTS, .SBC, .SEC,
    .SED, .SEI, .STA, .STX, .STY, .TAX, .TAY, .TSX, .TXA, .TXS, .TYA]

end Mnemonic

end Mos6502
