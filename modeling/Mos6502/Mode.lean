namespace Mos6502

inductive Mode where
  | implicit | accumulator | immediate
  | zeroPage | zeroPageX | zeroPageY
  | relative
  | absolute | absoluteX | absoluteY
  | indirect | indirectX | indirectY
  deriving DecidableEq, Repr

namespace Mode

def size : Mode → Nat
  | .implicit | .accumulator => 1
  | .absolute | .absoluteX | .absoluteY | .indirect => 3
  | _ => 2

def hasAddress : Mode → Bool
  | .implicit | .accumulator => false
  | _ => true

def name : Mode → String
  | .implicit => "Implicit"
  | .accumulator => "Accumulator"
  | .immediate => "Immediate"
  | .zeroPage => "ZeroPage"
  | .zeroPageX => "ZeroPageX"
  | .zeroPageY => "ZeroPageY"
  | .relative => "Relative"
  | .absolute => "Absolute"
  | .absoluteX => "AbsoluteX"
  | .absoluteY => "AbsoluteY"
  | .indirect => "Indirect"
  | .indirectX => "IndirectX"
  | .indirectY => "IndirectY"

def all : List Mode :=
  [.implicit, .accumulator, .immediate, .zeroPage, .zeroPageX, .zeroPageY, .relative, .absolute,
    .absoluteX, .absoluteY, .indirect, .indirectX, .indirectY]

end Mode

end Mos6502
