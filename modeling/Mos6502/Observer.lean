import Mos6502.Micro

namespace Mos6502

/-- What an observer does with the request to stop, which it shares with the others. -/
inductive Control where
  | leave
  | ask
  | withdraw
  deriving DecidableEq, Repr

def Control.apply : Control → (stop : Bool) → Bool
  | .leave, stop => stop
  | .ask, _ => true
  | .withdraw, _ => false

/-- What an observer does when told of an instruction. `self` is the observer as it stands at that
point; a fault leaves it so. -/
inductive Probe (ω : Type) where
  | done (self : ω) (control : Control)
  | fault (self : ω) (f : Fault)
  | read (self : ω) (addr : Addr) (next : Byte → Probe ω)
  | peek (addr : Addr) (next : Byte → Probe ω)
  | print (text : String) (next : Probe ω)
  | log (line : LogLine) (next : Probe ω)
  | keep (s : Snapshot) (next : Probe ω)
  /-- Asks for a pause of `ms` milliseconds. -/
  | pause (ms : Nat) (next : Probe ω)

class Observer (ω : Type) where
  /-- `stopSeen` is the request to stop, as the observers before this one have left it. -/
  notify : View → (stopSeen : Bool) → ω → Probe ω

namespace Probe

variable {ω ω' σ : Type}

def map (f : ω → ω') : Probe ω → Probe ω'
  | .done self control => .done (f self) control
  | .fault self x => .fault (f self) x
  | .read self addr next => .read (f self) addr fun v => (next v).map f
  | .peek addr next => .peek addr fun v => (next v).map f
  | .print text next => .print text (next.map f)
  | .log line next => .log line (next.map f)
  | .keep s next => .keep s (next.map f)
  | .pause ms next => .pause ms (next.map f)

/-- The probe of the observer at `position`, as work on the state that `put` places it in. -/
def activity (position : Nat) (put : ω → σ) : Probe ω → Activity σ (ω × Control)
  | .done self control => .done (put self) (self, control)
  | .fault self x => .abort (put self) (.fault x)
  | .read self addr next => .read (put self) addr fun v => (next v).activity position put
  | .peek addr next => .peek addr fun v => (next v).activity position put
  | .print text next => .note (.printed position text) (next.activity position put)
  | .log line next => .note (.log line) (next.activity position put)
  | .keep s next => .note (.snapshot s) (next.activity position put)
  | .pause ms next => .note (.pause ms) (next.activity position put)

end Probe

instance : Observer Empty where
  notify _ _ := nofun

end Mos6502
