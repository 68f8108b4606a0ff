import Mos6502.Bus
import Mos6502.Note

namespace Mos6502

/-- What is left to do. An access or a poll carries the state in which it is made: a fault leaves that
state. -/
inductive Activity (σ α : Type) where
  | done (state : σ) (value : α)
  | abort (state : σ) (why : Abort)
  | read (state : σ) (addr : Addr) (next : Byte → Activity σ α)
  | write (state : σ) (addr : Addr) (value : Byte) (next : Activity σ α)
  /-- Looks into a cell without an access. -/
  | peek (addr : Addr) (next : Byte → Activity σ α)
  /-- Looks at the interrupt line. -/
  | poll (state : σ) (next : Bool → Activity σ α)
  | note (what : Note) (next : Activity σ α)

/-- How work ended: with a value or cut short, the state and the bus it left, and its notes. -/
structure Ending (β σ α : Type) where
  outcome : Except Abort α
  state : σ
  bus : β
  notes : List Note

namespace Activity

variable {σ τ α γ β : Type}

def andThen : Activity σ α → (α → σ → Activity σ γ) → Activity σ γ
  | .done s a, f => f a s
  | .abort s why, _ => .abort s why
  | .read s addr next, f => .read s addr fun v => (next v).andThen f
  | .write s addr v next, f => .write s addr v (next.andThen f)
  | .peek addr next, f => .peek addr fun v => (next v).andThen f
  | .poll s next, f => .poll s fun line => (next line).andThen f
  | .note n next, f => .note n (next.andThen f)

def mapState (f : σ → τ) : Activity σ α → Activity τ α
  | .done s a => .done (f s) a
  | .abort s why => .abort (f s) why
  | .read s addr next => .read (f s) addr fun v => (next v).mapState f
  | .write s addr v next => .write (f s) addr v (next.mapState f)
  | .peek addr next => .peek addr fun v => (next v).mapState f
  | .poll s next => .poll (f s) fun line => (next line).mapState f
  | .note n next => .note n (next.mapState f)

def on [Bus β] : Activity σ α → β → Ending β σ α
  | .done s a, b => ⟨.ok a, s, b, []⟩
  | .abort s why, b => ⟨.error why, s, b, []⟩
  | .read s addr next, b =>
    match Bus.read b addr with
    | (.ok v, b') => (next v).on b'
    | (.error f, b') => ⟨.error (.fault f), s, b', []⟩
  | .write s addr v next, b =>
    match Bus.write b addr v with
    | (.ok (), b') => next.on b'
    | (.error f, b') => ⟨.error (.fault f), s, b', []⟩
  | .peek addr next, b => (next (Bus.peek b addr)).on b
  | .poll s next, b =>
    match Bus.poll b with
    | (.ok line, b') => (next line).on b'
    | (.error f, b') => ⟨.error (.fault f), s, b', []⟩
  | .note n next, b =>
    let e := next.on b
    { e with notes := n :: e.notes }

end Activity

def Micro (σ α : Type) : Type := σ → Activity σ α

namespace Micro

variable {σ τ α γ β : Type}

instance : Monad (Micro σ) where
  pure a := fun s => .done s a
  bind p f := fun s => (p s).andThen f

instance : MonadStateOf σ (Micro σ) where
  get := fun s => .done s s
  set s := fun _ => .done s ()
  modifyGet f := fun s => let (a, s') := f s; .done s' a

def fail (e : ExecError) : Micro σ α := fun s => .abort s (.error e)

def read (addr : Addr) : Micro σ Byte := fun s => .read s addr (.done s)

def write (addr : Addr) (v : Byte) : Micro σ Unit := fun s => .write s addr v (.done s ())

def poll : Micro σ Bool := fun s => .poll s (.done s)

def note (n : Note) : Micro σ Unit := fun s => .note n (.done s ())

def log (line : LogLine) : Micro σ Unit := note (.log line)

/-- The little-endian word at `addr`, low byte first; the high byte's address wraps. -/
def readWord (addr : Addr) : Micro σ Addr := do
  let lo ← read addr
  let hi ← read (addr + 1)
  return word lo hi

/-- Runs `p` on the part of the state that `get` and `put` show. -/
def within (get : τ → σ) (put : σ → τ → τ) (p : Micro σ α) : Micro τ α :=
  fun t => (p (get t)).mapState fun s => put s t

def on [Bus β] (p : Micro σ α) (s : σ) (b : β) : Ending β σ α := (p s).on b

end Micro

end Mos6502
