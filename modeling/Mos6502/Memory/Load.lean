import Mos6502.Files
import Mos6502.Memory
import Mos6502.Note

namespace Mos6502

def rangeLength (first last : Addr) : Except LoadError Nat :=
  if last < first then .error (.invalidRange first last)
  else .ok (last.toNat - first.toNat + 1)

namespace Memory

/-- `bytes` must fill `first … last` exactly. -/
def loadRange (m : Memory) (bytes : List Byte) (first last : Addr) : Except LoadError Memory := do
  let expected ← rangeLength first last
  if bytes.length = expected then
    return m.store first bytes
  else
    throw (.rangeMismatch first last expected bytes.length)

/-- Fills `first … last` with the beginning of a file; gives the line to log as well. -/
def loadFile (m : Memory) (files : Files) (path : String) (first last : Addr) :
    Except LoadError (Memory × LogLine) := do
  let expected ← rangeLength first last
  match files path with
  | none => throw (.cannotOpen path)
  | some .directory => throw (.cannotRead path)
  | some (.regular bytes) =>
    if bytes.length < expected then
      throw (.shortRead path expected bytes.length)
    else
      return (← m.loadRange (bytes.take expected) first last, .loaded expected path first last)

end Memory

end Mos6502
