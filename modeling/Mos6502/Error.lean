import Mos6502.Hex
import Mos6502.Instruction

namespace Mos6502

inductive Fault where
  | text (message : String)
  /-- A fault that carries no text. -/
  | silent
  deriving DecidableEq, Repr

def Fault.message : Fault → String
  | .text message => message
  | .silent => "unknown panic payload"

inductive ExecError where
  | undocumented (opcode : Byte) (pc : Addr)
  | notImplemented (instruction : Instruction) (pc : Addr)
  /-- An instruction that works on an address was given none. -/
  | noTarget (mnemonic : Mnemonic) (mode : Mode) (pc : Addr)
  | rejected (addr : Addr)
  /-- A fault, with the opcode fetched last and the place where the instruction began. -/
  | internalFault (opcode : Byte) (pc : Addr) (message : String)
  deriving DecidableEq, Repr

def ExecError.message : ExecError → String
  | .undocumented opcode pc => s!"opcode 0x{Hex.byte opcode} at 0x{Hex.word pc} does not exist"
  | .notImplemented i pc =>
    s!"instruction {i.mnemonic.name} {i.mode.name} (opcode 0x{Hex.byte i.opcode} at " ++
      s!"0x{Hex.word pc}) has not been implemented"
  | .noTarget mnemonic mode pc =>
    s!"couldn't find target address for instruction {mnemonic.name} {mode.name} at " ++
      s!"0x{Hex.word pc}"
  | .rejected addr => s!"memory access to 0x{Hex.word addr} was rejected"
  | .internalFault opcode pc message =>
    s!"internal fault executing opcode 0x{Hex.byte opcode} at 0x{Hex.word pc}: {message}"

inductive Abort where
  | fault (f : Fault)
  | error (e : ExecError)
  deriving DecidableEq, Repr

/-- Why an image was not copied into memory; a range runs from `first` to `last` inclusive. -/
inductive LoadError where
  | invalidRange (first last : Addr)
  | rangeMismatch (first last : Addr) (expected actual : Nat)
  | cannotOpen (path : String)
  | cannotRead (path : String)
  | shortRead (path : String) (expected actual : Nat)
  deriving DecidableEq, Repr

def LoadError.message : LoadError → String
  | .invalidRange first last => s!"invalid load range 0x{Hex.word first}..=0x{Hex.word last}"
  | .rangeMismatch first last expected actual =>
    s!"range 0x{Hex.word first}..=0x{Hex.word last} needs {expected} bytes, got {actual}"
  | .cannotOpen path => s!"error opening file {path}"
  | .cannotRead path => s!"error reading file {path}"
  | .shortRead path expected actual =>
    s!"file {path} holds {actual} bytes, range needs {expected}"

end Mos6502
