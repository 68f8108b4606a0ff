import Mos6502.Machine.Run
import Mos6502.Memory.Load

namespace Mos6502

abbrev Emulator := Machine Memory Empty

inductive EmulatorError where
  | doesNotFit (length : Nat) (start : Addr)
  | load (e : LoadError)
  | abort (why : Abort)
  deriving DecidableEq, Repr

def Abort.message : Abort → String
  | .fault f => f.message
  | .error e => e.message

def EmulatorError.message : EmulatorError → String
  | .doesNotFit length start => s!"image of {length} bytes does not fit at 0x{Hex.word start}"
  | .load e => e.message
  | .abort why => why.message

namespace Emulator

def new : Emulator := { bus := .zero, logging := .off }

/-- Copies an image to `start` and on. An empty image fits everywhere. -/
def load (e : Emulator) (image : List Byte) (start : Addr) : Except EmulatorError Emulator :=
  if image.isEmpty then .ok e
  else
    let last := start.toNat + image.length - 1
    if 0xFFFF < last then .error (.doesNotFit image.length start)
    else match e.bus.loadRange image start (UInt16.ofNat last) with
      | .ok bus => .ok { e with bus }
      | .error why => .error (.load why)

def reset (e : Emulator) : Emulator := (e.performCpu Cpu.reset).2

def startAt (e : Emulator) (addr : Addr) : Emulator := e.modifyRegs (·.setPc addr)

def step (e : Emulator) : Except EmulatorError Unit × Emulator :=
  let (r, e) := Machine.step e
  (r.mapError .abort, e)

def run (e : Emulator) (count : Nat) : Except EmulatorError Nat × Emulator :=
  let (r, e) := Machine.runFor count e
  (r.mapError fun why => .abort (.error why), e)

def read (e : Emulator) (addr : Addr) : Byte := e.bus.read addr

def write (e : Emulator) (addr : Addr) (v : Byte) : Emulator := { e with bus := e.bus.write addr v }

def page (e : Emulator) (number : Byte) : List Byte := e.bus.bytes (word 0 number) 256

end Emulator

end Mos6502
