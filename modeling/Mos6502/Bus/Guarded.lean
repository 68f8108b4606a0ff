import Mos6502.Bus

namespace Mos6502

inductive Refusal where
  /-- Names the kind of access and the address. -/
  | unmapped
  | text (message : String)
  | silent
  deriving DecidableEq, Repr

def Refusal.fault (r : Refusal) (kind : AccessKind) (addr : Addr) : Fault :=
  match r, kind with
  | .unmapped, .read => .text s!"read from 0x{Hex.word addr} is not mapped"
  | .unmapped, .write => .text s!"write to 0x{Hex.word addr} is not mapped"
  | .text message, _ => .text message
  | .silent, _ => .silent

/-- Refuses accesses of one kind to `first … last`. -/
structure GuardRule where
  kind : AccessKind
  first : Addr
  last : Addr
  refusal : Refusal
  deriving DecidableEq, Repr

def GuardRule.Matches (r : GuardRule) (kind : AccessKind) (addr : Addr) : Prop :=
  r.kind = kind ∧ r.first ≤ addr ∧ addr ≤ r.last

instance (r : GuardRule) (kind : AccessKind) (addr : Addr) : Decidable (r.Matches kind addr) :=
  inferInstanceAs (Decidable (_ ∧ _ ∧ _))

structure Guarded (β : Type) where
  bus : β
  rules : List GuardRule := []

namespace Guarded

variable {β : Type}

/-- The fault an access meets, by the first rule that matches it. -/
def refuses (b : Guarded β) (kind : AccessKind) (addr : Addr) : Option Fault :=
  (b.rules.find? fun r => r.Matches kind addr).map fun r => r.refusal.fault kind addr

instance [Bus β] : Bus (Guarded β) where
  read b addr :=
    match b.refuses .read addr with
    | some f => (.error f, b)
    | none => match Bus.read b.bus addr with
      | (r, bus) => (r, { b with bus })
  write b addr v :=
    match b.refuses .write addr with
    | some f => (.error f, b)
    | none => match Bus.write b.bus addr v with
      | (r, bus) => (r, { b with bus })
  peek b := Bus.peek b.bus
  poll b :=
    match Bus.poll b.bus with
    | (r, bus) => (r, { b with bus })

end Guarded

end Mos6502
