import Mos6502.Observer

namespace Mos6502

/-- Observers run behind the instruction, so even a used-up limit lets one through in each run. -/
structure Limit where
  limit : Nat
  seen : Nat := 0
  deriving DecidableEq, Repr

instance : Observer Limit where
  notify _ _ o :=
    let o := { o with seen := o.seen + 1 }
    if o.limit ≤ o.seen then .log (.limitReached o.limit) (.done o .ask) else .done o .leave

structure Throttle where
  delay : Nat
  deriving DecidableEq, Repr

instance : Observer Throttle where
  notify _ _ o := if o.delay = 0 then .done o .leave else .pause o.delay (.done o .leave)

end Mos6502
