import Mos6502.CommandLine.Split
import Mos6502.Note

namespace Mos6502.CommandLine

inductive ValueError where
  | notAnAddress (text : String)
  | noStart (text : String)
  | noPath (text : String)
  | notALevel (text : String)
  | notACount (text : String)
  deriving DecidableEq, Repr

def ValueError.message : ValueError → String
  | .notAnAddress text => s!"'{text}' is not a 16-bit hex address"
  | .noStart text => s!"'{text}' should look like PATH@START or PATH@START:END"
  | .noPath text => s!"'{text}' has no path"
  | .notALevel text => s!"'{text}' is not one of off, error, warn, info, debug, trace"
  | .notACount text => s!"'{text}' is not a count in range"

/-- The number that digits stand for in `base`, where `value?` reads a digit. There must be one digit
at least. -/
def number? (base : Nat) (value? : Char → Option Nat) : List Char → Option Nat
  | [] => none
  | cs => cs.foldlM (fun n c => (value? c).map (base * n + ·)) 0

def decimalValue? (c : Char) : Option Nat :=
  if '0' ≤ c ∧ c ≤ '9' then some (c.toNat - 48) else none

def withoutPlus : List Char → List Char
  | '+' :: cs => cs
  | cs => cs

/-- An address may be marked as hexadecimal, once. -/
def withoutMark : List Char → List Char
  | '0' :: 'x' :: cs => cs
  | '0' :: 'X' :: cs => cs
  | '$' :: cs => cs
  | cs => cs

def address? (text : List Char) : Option Addr :=
  match number? 16 Hex.value? (withoutPlus (withoutMark text)) with
  | some n => if n ≤ 0xFFFF then some (UInt16.ofNat n) else none
  | none => none

def parseAddress (text : String) : Except ValueError Addr :=
  match address? text.toList with
  | some addr => .ok addr
  | none => .error (.notAnAddress text)

/-- An image and the range it goes to; without `last`, as far as the image reaches. -/
structure Segment where
  path : String
  first : Addr
  last : Option Addr := none
  deriving DecidableEq, Repr

/-- `PATH@START` or `PATH@START:END`. A path may hold either separator: its end is the last at-sign. -/
def parseSegment (text : String) : Except ValueError Segment :=
  match splitLast '@' text.toList with
  | none => .error (.noStart text)
  | some ([], _) => .error (.noPath text)
  | some (path, range) =>
    match splitFirst ':' range with
    | none => do
      let first ← parseAddress (String.ofList range)
      return ⟨String.ofList path, first, none⟩
    | some (first, last) => do
      let first ← parseAddress (String.ofList first)
      let last ← parseAddress (String.ofList last)
      return ⟨String.ofList path, first, some last⟩

/-- A decimal number from `least` up to the 64-bit limit. -/
def parseCount (least : Nat) (text : String) : Except ValueError Nat :=
  match number? 10 decimalValue? (withoutPlus text.toList) with
  | some n => if least ≤ n ∧ n < UInt64.size then .ok n else .error (.notACount text)
  | none => .error (.notACount text)

def parseLevel (text : String) : Except ValueError LogLevel :=
  match LogLevel.all.find? fun l => l.name.toList == text.toList.map Char.toUpper with
  | some l => .ok l
  | none => .error (.notALevel text)

end Mos6502.CommandLine
