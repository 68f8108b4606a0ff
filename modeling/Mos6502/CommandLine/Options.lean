import Mos6502.CommandLine.Value

namespace Mos6502.CommandLine

inductive Setting where
  | load | start | maxInstructions | slowDown | logLevel
  deriving DecidableEq, Repr

inductive Switch where
  | debug | showZeroPage | step | help | version
  deriving DecidableEq, Repr

abbrev Item := Setting ⊕ Switch

def long? (name : String) : Option Item :=
  match name with
  | "load" => some (.inl .load)
  | "start" => some (.inl .start)
  | "max-instructions" => some (.inl .maxInstructions)
  | "slow-down-ms" => some (.inl .slowDown)
  | "log-level" => some (.inl .logLevel)
  | "debug" => some (.inr .debug)
  | "show-zero-page" => some (.inr .showZeroPage)
  | "step" => some (.inr .step)
  | "help" => some (.inr .help)
  | "version" => some (.inr .version)
  | _ => none

def short? : Char → Option Item
  | 'l' => some (.inl .load)
  | 's' => some (.inl .start)
  | 'n' => some (.inl .maxInstructions)
  | 'd' => some (.inr .debug)
  | 'h' => some (.inr .help)
  | 'V' => some (.inr .version)
  | _ => none

/-- Why arguments give no configuration; asking for help or the version is among the reasons. -/
inductive UsageError where
  | missingRequired
  | badValue (why : ValueError)
  | missingValue
  | unknownArgument
  | repeated
  | unneededValue
  | help
  | version
  deriving DecidableEq, Repr

structure Given where
  segments : List Segment := []
  start : Option Addr := none
  maxInstructions : Option Nat := none
  slowDown : Option Nat := none
  logLevel : Option LogLevel := none
  debug : Bool := false
  showZeroPage : Bool := false
  step : Bool := false
  deriving DecidableEq, Repr

structure DebugSettings where
  showZeroPage : Bool := false
  step : Bool := false
  deriving DecidableEq, Repr

structure Config where
  segments : List Segment
  start : Option Addr := none
  maxInstructions : Option Nat := none
  debug : Option DebugSettings := none
  /-- Milliseconds to pause behind each instruction. -/
  slowDown : Nat := 0
  logLevel : LogLevel := .warn
  deriving DecidableEq, Repr

namespace Given

def value {α : Type} (r : Except ValueError α) : Except UsageError α := r.mapError .badValue

/-- Gives `v` to a setting. Only images may be given more than once; that is found out before `v` is
looked at. -/
def give (g : Given) (s : Setting) (v : String) : Except UsageError Given :=
  match s with
  | .load => do return { g with segments := g.segments ++ [← value (parseSegment v)] }
  | .start => do
    if g.start.isSome then throw .repeated
    return { g with start := some (← value (parseAddress v)) }
  | .maxInstructions => do
    if g.maxInstructions.isSome then throw .repeated
    return { g with maxInstructions := some (← value (parseCount 1 v)) }
  | .slowDown => do
    if g.slowDown.isSome then throw .repeated
    return { g with slowDown := some (← value (parseCount 0 v)) }
  | .logLevel => do
    if g.logLevel.isSome then throw .repeated
    return { g with logLevel := some (← value (parseLevel v)) }

def turnOn (g : Given) (s : Switch) : Except UsageError Given :=
  match s with
  | .debug => if g.debug then .error .repeated else .ok { g with debug := true }
  | .showZeroPage =>
    if g.showZeroPage then .error .repeated else .ok { g with showZeroPage := true }
  | .step => if g.step then .error .repeated else .ok { g with step := true }
  | .help => .error .help
  | .version => .error .version

/-- An image is required, and what refines debugging requires debugging. -/
def config (g : Given) : Except UsageError Config :=
  if g.segments.isEmpty ∨ (g.showZeroPage ∨ g.step) ∧ ¬g.debug then .error .missingRequired
  else .ok {
    segments := g.segments
    start := g.start
    maxInstructions := g.maxInstructions
    debug := if g.debug then some ⟨g.showZeroPage, g.step⟩ else none
    slowDown := g.slowDown.getD 0
    logLevel := g.logLevel.getD .warn }

end Given

/-- Reading arguments: a setting may still wait for its value, or hold one not looked at yet. -/
structure Reading where
  given : Given := {}
  waiting : Option (Setting × Option String) := none

namespace Reading

def settle (r : Reading) : Except UsageError Given :=
  match r.waiting with
  | none => .ok r.given
  | some (_, none) => .error .missingValue
  | some (s, some v) => r.given.give s v

def give (r : Reading) (s : Setting) (v : String) : Except UsageError Reading := do
  return { given := ← (← r.settle).give s v }

def turnOn (r : Reading) (s : Switch) : Except UsageError Reading := do
  return { given := ← (← r.settle).turnOn s }

def await (r : Reading) (s : Setting) : Except UsageError Reading := do
  return { given := ← r.settle, waiting := some (s, none) }

/-- What follows two dashes: a name and, behind an equals sign, a value. -/
def long (r : Reading) (cs : List Char) : Except UsageError Reading :=
  let (name, v) := match splitFirst '=' cs with
    | some (name, v) => (name, some (String.ofList v))
    | none => (cs, none)
  match long? (String.ofList name), v with
  | some (.inl s), some v => r.give s v
  | some (.inl s), none => r.await s
  | some (.inr s), none => r.turnOn s
  | some (.inr _), some _ => .error .unneededValue
  | none, _ => .error .unknownArgument

/-- What follows one dash: switches, and at the end a setting whose value is the rest. -/
def shorts (r : Reading) : List Char → Except UsageError Reading
  | [] => .ok r
  | c :: cs => match short? c with
    | some (.inl s) => match cs with
      | [] => r.await s
      | '=' :: v => r.give s (String.ofList v)
      | v => r.give s (String.ofList v)
    | some (.inr s) => do (← r.turnOn s).shorts cs
    | none => .error .unknownArgument

/-- An argument that is no option has to be the value of a setting that waits for one. -/
def plain (r : Reading) (v : String) : Except UsageError Reading :=
  match r.waiting with
  | some (s, none) => .ok { r with waiting := some (s, some v) }
  | _ => .error .unknownArgument

/-- Two dashes alone end the options, and nothing else is taken. -/
def all (r : Reading) : List String → Except UsageError Reading
  | [] => .ok r
  | arg :: args => match arg.toList with
    | ['-', '-'] => if args.isEmpty then .ok r else .error .unknownArgument
    | '-' :: '-' :: cs => do (← r.long cs).all args
    | '-' :: c :: cs => do (← r.shorts (c :: cs)).all args
    | _ => do (← r.plain arg).all args

end Reading

def given (args : List String) : Except UsageError Given := do
  (← Reading.all {} args).settle

def parse (args : List String) : Except UsageError Config := do
  (← given args).config

end Mos6502.CommandLine
