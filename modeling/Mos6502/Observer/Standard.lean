import Mos6502.Observer.Limit
import Mos6502.Observer.Report
import Mos6502.Observer.Watch

namespace Mos6502

inductive Standard where
  | limit (o : Limit)
  | throttle (o : Throttle)
  | reporter (o : Reporter)
  | recorder (o : Recorder)
  | breakpoint (o : Breakpoint)
  deriving DecidableEq, Repr

instance : Observer Standard where
  notify v stopSeen
    | .limit o => (Observer.notify v stopSeen o).map .limit
    | .throttle o => (Observer.notify v stopSeen o).map .throttle
    | .reporter o => (Observer.notify v stopSeen o).map .reporter
    | .recorder o => (Observer.notify v stopSeen o).map .recorder
    | .breakpoint o => (Observer.notify v stopSeen o).map .breakpoint

end Mos6502
