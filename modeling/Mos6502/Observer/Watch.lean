import Mos6502.Observer

namespace Mos6502

/-- Keeps a snapshot of every instruction, with what is then in the cell at `peek`. -/
structure Recorder where
  name : String
  peek : Addr := 0
  deriving DecidableEq, Repr

instance : Observer Recorder where
  notify v stopSeen o :=
    .peek o.peek fun b => .keep ⟨o.name, v, b, stopSeen⟩ (.done o .leave)

inductive Quantity where
  | reg (r : Reg)
  | pc
  | opcode
  | executed
  deriving DecidableEq, Repr

def Quantity.value (q : Quantity) (v : View) : Nat :=
  match q with
  | .reg r => (v.regs.get r).toNat
  | .pc => v.regs.pc.toNat
  | .opcode => v.instruction.opcode.toNat
  | .executed => v.executed

/-- Stops when a quantity has a value, or faults with the text `failure`. -/
structure Breakpoint where
  quantity : Quantity
  value : Nat
  failure : Option String := none
  deriving DecidableEq, Repr

instance : Observer Breakpoint where
  notify v _ o :=
    if o.quantity.value v = o.value then
      match o.failure with
      | some text => .fault o (.text text)
      | none => .done o .ask
    else .done o .leave

end Mos6502
