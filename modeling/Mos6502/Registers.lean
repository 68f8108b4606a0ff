import Mos6502.Operation

namespace Mos6502

/-- The stack pointer is an offset into page one. -/
structure Registers where
  a : Byte := 0
  x : Byte := 0
  y : Byte := 0
  sp : Byte := 0xFD
  pc : Addr := 0
  flags : Flags := {}
  deriving DecidableEq, Repr, Inhabited

namespace Registers

def get (r : Registers) : Reg → Byte
  | .a => r.a
  | .x => r.x
  | .y => r.y
  | .sp => r.sp

def set (r : Registers) (reg : Reg) (v : Byte) : Registers :=
  match reg with
  | .a => { r with a := v }
  | .x => { r with x := v }
  | .y => { r with y := v }
  | .sp => { r with sp := v }

def setPc (r : Registers) (pc : Addr) : Registers := { r with pc }

def setFlags (r : Registers) (flags : Flags) : Registers := { r with flags }

theorem get_set (r : Registers) (reg other : Reg) (v : Byte) :
    (r.set reg v).get other = if other = reg then v else r.get other := by
  cases reg <;> cases other <;> rfl

variable (r : Registers)

@[simp] theorem flags_set (reg : Reg) (v : Byte) : (r.set reg v).flags = r.flags := by
  cases reg <;> rfl

@[simp] theorem pc_set (reg : Reg) (v : Byte) : (r.set reg v).pc = r.pc := by cases reg <;> rfl

@[simp] theorem get_setPc (pc : Addr) (reg : Reg) : (r.setPc pc).get reg = r.get reg := by
  cases reg <;> rfl

@[simp] theorem pc_setPc (pc : Addr) : (r.setPc pc).pc = pc := rfl

@[simp] theorem flags_setPc (pc : Addr) : (r.setPc pc).flags = r.flags := rfl

@[simp] theorem get_setFlags (f : Flags) (reg : Reg) : (r.setFlags f).get reg = r.get reg := by
  cases reg <;> rfl

@[simp] theorem pc_setFlags (f : Flags) : (r.setFlags f).pc = r.pc := rfl

@[simp] theorem flags_setFlags (f : Flags) : (r.setFlags f).flags = f := rfl

end Registers

end Mos6502
