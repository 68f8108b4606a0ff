import Mos6502.CommandLine.Run

namespace Mos6502.CommandLine

def readEntry (path : String) : IO (Option FileEntry) := do
  try
    return some (.regular (← IO.FS.readBinFile path).toList)
  catch
    | .inappropriateType .. => return some .directory
    | _ => return none

def readFiles (segments : List Segment) : IO Files := do
  let entries ← segments.mapM fun s => do return (s.path, ← readEntry s.path)
  return fun path => (entries.lookup path).join

def pass (note : Note) : IO Unit := do
  match note with
  | .printed _ text =>
    let out ← IO.getStdout
    out.putStr text
    out.flush
  | .log line => (← IO.getStderr).putStrLn line.render
  | .pause ms => IO.sleep (UInt32.ofNat ms)
  | .snapshot _ => return

/-- Carries a run to its end, passing on notes every `stride` instructions. -/
partial def drive (stride : Nat) (m : Machine Memory Standard) :
    IO (Except ExecError Unit × Machine Memory Standard) := do
  let e := m.resume stride
  let (notes, m) := e.machine.takeNotes
  notes.forM pass
  match e with
  | .running _ => drive stride m
  | .ended verdict _ => return (verdict, m)

/-- Single stepping: each instruction is carried out as if a line were there. When none comes, the same
instruction is taken again without one; both print the same. -/
partial def driveStepwise (m : Machine Memory Standard) :
    IO (Except ExecError Unit × Machine Memory Standard) := do
  let supplied := (withInput [""] m).resume 1
  let (notes, next) := supplied.machine.takeNotes
  (notes.filter Note.isPrinted).forM pass
  let e ← if inputUsed next ∧ (← (← IO.getStdin).getLine).isEmpty then
    pure ((withInput [] m).resume 1)
  else
    pure supplied
  let (notes, m) := e.machine.takeNotes
  (notes.filter fun n => !n.isPrinted).forM pass
  match e with
  | .running _ => driveStepwise m
  | .ended verdict _ => return (verdict, m)

def usage : String :=
  "Usage: mos6502 --load PATH@START[:END] [OPTIONS]\n\n" ++
  "  -l, --load PATH@START[:END]  image to load (hex addresses, END included)\n" ++
  "  -s, --start ADDR             begin here instead of at the reset vector\n" ++
  "  -n, --max-instructions N     stop after N instructions\n" ++
  "  -d, --debug                  print registers and flags after each instruction\n" ++
  "      --show-zero-page         with --debug, print page zero as well\n" ++
  "      --step                   with --debug, wait for Enter after each instruction\n" ++
  "      --slow-down-ms MS        pause after each instruction\n" ++
  "      --log-level LEVEL        off, error, warn, info, debug or trace\n"

def UsageError.message : UsageError → String
  | .missingRequired => "a required option is missing"
  | .badValue why => why.message
  | .missingValue => "an option has no value"
  | .unknownArgument => "there is an unknown argument"
  | .repeated => "an option is given twice"
  | .unneededValue => "an option takes no value"
  | .help | .version => ""

def finish (e : Exit) : IO UInt32 := do
  (← IO.getStdout).putStr e.stdout
  (← IO.getStderr).putStr e.stderr
  return UInt32.ofNat e.code

def run (c : Config) : IO UInt32 := do
  match launch (← readFiles c.segments) [] c with
  | .error e => finish (.failure e)
  | .ok m =>
    let stepwise := match c.debug with
      | some d => d.step
      | none => false
    let (verdict, m) ← if stepwise then driveStepwise m
      else drive (if c.debug.isSome ∨ c.slowDown ≠ 0 then 1 else 10000) m
    finish (Exit.ofVerdict verdict m)

end Mos6502.CommandLine

open Mos6502.CommandLine in
def main (args : List String) : IO UInt32 := do
  match parse args with
  | .ok c => run c
  | .error .help => finish { code := 0, stdout := usage }
  | .error .version => finish { code := 0, stdout := "mos6502 1.0\n" }
  | .error e => finish { Exit.usage with stderr := s!"error: {e.message}\n\n{usage}" }
