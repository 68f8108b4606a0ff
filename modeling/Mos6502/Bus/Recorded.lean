import Mos6502.Bus

namespace Mos6502

structure Recorded (β : Type) where
  bus : β
  accesses : Array Access := #[]

instance {β : Type} [Bus β] : Bus (Recorded β) where
  read b addr :=
    match Bus.read b.bus addr with
    | (.ok v, bus) => (.ok v, ⟨bus, b.accesses.push ⟨.read, addr, v⟩⟩)
    | (.error f, bus) => (.error f, { b with bus })
  write b addr v :=
    match Bus.write b.bus addr v with
    | (.ok (), bus) => (.ok (), ⟨bus, b.accesses.push ⟨.write, addr, v⟩⟩)
    | (.error f, bus) => (.error f, { b with bus })
  peek b := Bus.peek b.bus
  poll b :=
    match Bus.poll b.bus with
    | (r, bus) => (r, { b with bus })

end Mos6502
