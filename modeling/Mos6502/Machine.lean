import Mos6502.Execute
import Mos6502.Observer

namespace Mos6502

structure Engine (ω : Type) where
  cpu : Cpu := {}
  observers : List ω := []
  /-- A stop was asked for. -/
  stop : Bool := false
  deriving DecidableEq

namespace Engine

variable {ω α : Type}

def onCpu (p : Micro Cpu α) : Micro (Engine ω) α :=
  Micro.within Engine.cpu (fun cpu e => { e with cpu }) p

variable [Observer ω]

/-- Tells the observers `rest`, which stand behind `before`. Each is shown the request to stop as the
one before it has left it, the first of them `stop`; the last one's is given back. -/
def notifyFrom (view : View) : (before rest : List ω) → (stop : Bool) → Micro (Engine ω) Bool
  | _, [], stop => return stop
  | before, o :: rest, stop => do
    let (self, control) ← fun e =>
      (Observer.notify view stop o).activity before.length fun self =>
        { e with observers := before ++ self :: rest }
    notifyFrom view (before ++ [self]) rest (control.apply stop)

/-- Tells every observer of an instruction, in the order of the list. To begin with nobody has asked for
a stop. -/
def notify (view : View) : Micro (Engine ω) Unit := do
  if ← notifyFrom view [] (← get).observers false then
    modify fun e => { e with stop := true }

/-- One instruction, told to the observers before anything latched is serviced. -/
def step : Micro (Engine ω) Unit := do
  let view ← onCpu Cpu.instruction
  notify view
  onCpu Cpu.settle

end Engine

structure Machine (β ω : Type) extends Engine ω where
  bus : β
  /-- What has been noted, oldest first. -/
  journal : Array Note := #[]
  /-- How much is logged. -/
  logging : LogLevel := .trace

namespace Machine

variable {β ω α : Type}

def modifyCpu (f : Cpu → Cpu) (m : Machine β ω) : Machine β ω := { m with cpu := f m.cpu }

def modifyRegs (f : Registers → Registers) (m : Machine β ω) : Machine β ω :=
  m.modifyCpu (Cpu.mapRegs f)

def observe (observers : List ω) (m : Machine β ω) : Machine β ω :=
  { m with observers := m.observers ++ observers }

def note (n : Note) (m : Machine β ω) : Machine β ω :=
  if n.kept m.logging then { m with journal := m.journal.push n } else m

def log (line : LogLine) (m : Machine β ω) : Machine β ω := m.note (.log line)

def takeNotes (m : Machine β ω) : List Note × Machine β ω :=
  (m.journal.toList, { m with journal := #[] })

def perform [Bus β] (p : Micro (Engine ω) α) : Machine β ω → Except Abort α × Machine β ω
  | ⟨engine, bus, journal, logging⟩ =>
    let e := p.on engine bus
    (e.outcome, ⟨e.state, e.bus, e.notes.foldl (fun j n => if n.kept logging then j.push n else j)
      journal, logging⟩)

def performCpu [Bus β] (p : Micro Cpu α) (m : Machine β ω) : Except Abort α × Machine β ω :=
  m.perform (Engine.onCpu p)

def step [Bus β] [Observer ω] (m : Machine β ω) : Except Abort Unit × Machine β ω :=
  m.perform Engine.step

/-- One instruction; a fault becomes an error that names the opcode fetched last and the place where
the instruction began. -/
def guardedStep [Bus β] [Observer ω] (m : Machine β ω) : Except ExecError Unit × Machine β ω :=
  let pc := m.cpu.regs.pc
  match m.step with
  | (.ok (), m') => (.ok (), m')
  | (.error (.error e), m') => (.error e, m')
  | (.error (.fault f), m') => (.error (.internalFault m'.cpu.fetched pc f.message), m')

end Machine

end Mos6502
