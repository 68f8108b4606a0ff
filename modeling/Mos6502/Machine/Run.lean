import Mos6502.Machine

namespace Mos6502.Machine

variable {β ω : Type} [Bus β] [Observer ω]

/-- Goes on for at most `count` instructions, after `done` of them. -/
def runFrom (done : Nat) : (count : Nat) → Machine β ω → Except ExecError Nat × Machine β ω
  | 0, m => (.ok done, m)
  | count + 1, m =>
    if m.stop then (.ok done, m)
    else match m.guardedStep with
      | (.ok (), m') => runFrom (done + 1) count m'
      | (.error e, m') => (.error e, m')

/-- Runs at most `count` instructions, fewer if one fails or a stop is asked for, and gives their
number. An earlier request to stop does not count. -/
def runFor (count : Nat) (m : Machine β ω) : Except ExecError Nat × Machine β ω :=
  runFrom 0 count { m with stop := false }

/-- A run until a stop: under way or ended, with the machine as it is. -/
inductive Emulation (β ω : Type) where
  | running (m : Machine β ω)
  | ended (verdict : Except ExecError Unit) (m : Machine β ω)

def Emulation.machine : Emulation β ω → Machine β ω
  | .running m | .ended _ m => m

def begin (m : Machine β ω) : Machine β ω :=
  let m := { m with stop := false, cpu := { m.cpu with holdPc := false } }
  m.log (.started m.cpu.regs.pc m.observers.length)

/-- Goes on with a run for at most `fuel` instructions. It ends, before the next instruction, when a
stop is asked for, and with the error of an instruction that fails. -/
def resume : (fuel : Nat) → Machine β ω → Emulation β ω
  | fuel, m =>
    if m.stop then .ended (.ok ()) (m.log (.stopped m.cpu.regs.pc m.cpu.executed))
    else match fuel with
      | 0 => .running m
      | fuel + 1 => match m.guardedStep with
        | (.ok (), m') => m'.resume fuel
        | (.error e, m') => .ended (.error e) (m'.log (.failed e))

def startAt (addr : Addr) (m : Machine β ω) : Machine β ω :=
  (m.modifyRegs (·.setPc addr)).begin

/-- Resets and begins a run. A fault of the reset is not caught. -/
def start (m : Machine β ω) : Except Abort Unit × Machine β ω :=
  match m.performCpu Cpu.reset with
  | (.ok (), m') => (.ok (), m'.begin)
  | (.error why, m') => (.error why, m')

end Mos6502.Machine
