import Mos6502.CommandLine.Options
import Mos6502.Machine.Run
import Mos6502.Memory.Load
import Mos6502.Observer.Standard

namespace Mos6502.CommandLine

inductive RunError where
  | unknownSize (path : String)
  | doesNotFit (path : String) (first : Addr) (length : Nat)
  | load (e : LoadError)
  | exec (e : ExecError)
  deriving DecidableEq, Repr

def RunError.message : RunError → String
  | .unknownSize path => s!"couldn't read size of {path}"
  | .doesNotFit path first length =>
    s!"{path} ({length} bytes) does not fit at 0x{Hex.word first}"
  | .load e => e.message
  | .exec e => e.message

/-- The last address of a segment. Without one given, it is where the file ends; an empty file is
taken to have one byte. -/
def lastAddr (files : Files) (s : Segment) : Except RunError Addr :=
  match s.last with
  | some last => .ok last
  | none => match files s.path with
    | none => .error (.unknownSize s.path)
    | some e =>
      let last := s.first.toNat + max e.size 1 - 1
      if 0xFFFF < last then .error (.doesNotFit s.path s.first e.size)
      else .ok (UInt16.ofNat last)

def loadSegment (files : Files) (m : Memory) (s : Segment) :
    Except RunError (Memory × LogLine) := do
  let last ← lastAddr files s
  (m.loadFile files s.path s.first last).mapError .load

def loadSegments (files : Files) : Memory → List Segment → Except RunError (Memory × List LogLine)
  | m, [] => .ok (m, [])
  | m, s :: segments => do
    let (m, line) ← loadSegment files m s
    let (m, lines) ← loadSegments files m segments
    return (m, line :: lines)

/-- Reports come before the limit, so that the last instruction is reported too. -/
def observers (c : Config) (input : List String) : List Standard :=
  let first : List Standard := match c.debug with
    | some d => [.reporter {
        zeroPage := d.showZeroPage
        input := if d.step then some input else none
        delay := c.slowDown }]
    | none => if c.slowDown = 0 then [] else [.throttle ⟨c.slowDown⟩]
  first ++ match c.maxInstructions with
    | some n => [.limit { limit := n }]
    | none => []

/-- The machine with its images loaded and its run begun; `input` holds the lines that single stepping
waits for. -/
def launch (files : Files) (input : List String) (c : Config) :
    Except RunError (Machine Memory Standard) := do
  let (bus, lines) ← loadSegments files .zero c.segments
  let m : Machine Memory Standard := { bus, observers := observers c input, logging := c.logLevel }
  let m := lines.foldl (fun m line => m.log line) m
  match c.start with
  | some addr => return m.startAt addr
  | none => match m.start with
    | (.ok (), m) => return m
    | (.error (.error e), _) => throw (.exec e)
    | (.error (.fault f), m') =>
      throw (.exec (.internalFault m'.cpu.fetched m.cpu.regs.pc f.message))

def withInput (lines : List String) (m : Machine Memory Standard) : Machine Memory Standard :=
  { m with observers := m.observers.map fun
      | .reporter o => .reporter { o with input := o.input.map fun _ => lines }
      | o => o }

def inputUsed (m : Machine Memory Standard) : Bool :=
  m.observers.any fun
    | .reporter o => o.input == some []
    | _ => false

def summary (c : Cpu) : String :=
  s!"{Report.registersLine c.regs}, P: 0x{Hex.byte (c.regs.flags.toByte false)}\n" ++
    s!"{c.executed} instructions executed\n"

structure Exit where
  code : Nat
  stdout : String := ""
  stderr : String := ""
  deriving DecidableEq, Repr

def Exit.usage : Exit := { code := 2 }

def Exit.failure (e : RunError) : Exit := { code := 1, stderr := s!"error: {e.message}\n" }

def Exit.ofVerdict (verdict : Except ExecError Unit) (m : Machine Memory Standard) : Exit :=
  match verdict with
  | .ok () => { code := 0, stdout := summary m.cpu }
  | .error e => .failure (.exec e)

def printed (notes : List Note) : String :=
  notes.foldl (fun text n => match n with | .printed _ t => text ++ t | _ => text) ""

/-- The lines of an input, the last of which need not be ended. -/
def inputLines (text : List Char) : List String :=
  match text with
  | [] => []
  | c :: cs => go [c] cs
where
  /-- `line` is the line so far, backwards. -/
  go (line : List Char) : List Char → List String
    | [] => [String.ofList line.reverse]
    | c :: cs => match line with
      | '\n' :: _ => String.ofList line.reverse :: go [c] cs
      | _ => go (c :: line) cs

end Mos6502.CommandLine
