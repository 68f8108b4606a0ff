import Mos6502.Proofs.Step

namespace Mos6502

/-- The request taken up behind the instruction `i`, begun in `c`: the one that was latched before,
else its own, else that of the interrupt line. -/
def Cpu.taken (c : Cpu) (i : Instruction) (line : Bool) : Option Interrupt :=
  (c.pending.or (if i.mnemonic = .BRK then some .brk else none)).or
    (if line then some .irq else none)

variable {β ω : Type} [Bus β] [Observer ω]

/-- Behind an instruction that left `c`, and a poll that left `b`, the request `taken` leads to `c'` and
`b'`. -/
structure Cpu.Takes (taken : Option Interrupt) (c : Cpu) (b : β) (c' : Cpu) (b' : β) : Prop where
  latch : c'.pending = none
  /-- There is nothing to take up, or an `irq` that is masked by now. -/
  passed (h : taken = none ∨ taken = some .irq ∧ c.regs.flags.interruptDisable = true) :
    c' = { c with pending := none } ∧ b' = b
  /-- A reset pushes nothing. -/
  reset (h : taken = some .reset) : ∃ lo hi,
    Serves b [⟨.read, 0xFFFC, lo⟩, ⟨.read, 0xFFFD, hi⟩] b' ∧
      c' = { c with
        pending := none
        regs := { c.regs with
          flags := { c.regs.flags with interruptDisable := true }
          pc := UInt16.ofNat (lo.toNat + 256 * hi.toNat) } } ∧
      ∀ cell, Bus.Holds cell → cell b' = cell b ∧ lo = cell b 0xFFFC ∧ hi = cell b 0xFFFD
  /-- All others push what the handler needs to return: the program counter, high byte first, and the
  status byte. -/
  saved {kind : Interrupt} (h : taken = some kind) (hr : kind ≠ .reset)
    (hm : kind = .irq → c.regs.flags.interruptDisable = false) : ∃ lo hi,
    let vector : Addr := if kind = .nmi then 0xFFFA else 0xFFFE
    let pushes : List Access :=
      [⟨.write, stackAddr c.regs.sp, UInt8.ofNat (c.regs.pc.toNat / 256)⟩,
        ⟨.write, stackAddr (c.regs.sp - 1), UInt8.ofNat (c.regs.pc.toNat % 256)⟩,
        ⟨.write, stackAddr (c.regs.sp - 2), c.regs.flags.toByte (kind = .brk)⟩]
    Serves b (pushes ++ [⟨.read, vector, lo⟩, ⟨.read, vector + 1, hi⟩]) b' ∧
      c' = { c with
        pending := none
        regs := { c.regs with
          sp := c.regs.sp - 3
          flags := { c.regs.flags with interruptDisable := true }
          pc := UInt16.ofNat (lo.toNat + 256 * hi.toNat) } } ∧
      ∀ cell, Bus.Holds cell →
        cell b' = stored (cell b) pushes ∧ lo = cell b vector ∧ hi = cell b (vector + 1)

theorem Cpu.toNat_stackAddr (sp : Byte) : (stackAddr sp).toNat = 256 + sp.toNat := by
  have h := sp.toNat_lt
  rw [stackAddr, UInt16.toNat_add]
  simp
  omega

theorem Cpu.stackAddr_lt (sp : Byte) : stackAddr sp < 0x0200 := by
  have h := sp.toNat_lt
  rw [UInt16.lt_iff_toNat_lt, toNat_stackAddr]
  show 256 + sp.toNat < 512
  omega

theorem Cpu.stackAddr_ne {sp : Byte} {addr : Addr} (h : 0x0200 ≤ addr) : stackAddr sp ≠ addr := by
  rintro rfl
  exact UInt16.not_le.2 (stackAddr_lt sp) h

theorem Interrupt.pushes_of_ne_reset {kind : Interrupt} (h : kind ≠ .reset) (r : Registers) :
    kind.pushes r =
      [⟨.write, Cpu.stackAddr r.sp, UInt8.ofNat (r.pc.toNat / 256)⟩,
        ⟨.write, Cpu.stackAddr (r.sp - 1), UInt8.ofNat (r.pc.toNat % 256)⟩,
        ⟨.write, Cpu.stackAddr (r.sp - 2), r.flags.toByte (kind = .brk)⟩] := by
  cases kind <;> first | rfl | exact absurd rfl h

theorem Interrupt.vector_of_ne_reset {kind : Interrupt} (h : kind ≠ .reset) :
    kind.vector = if kind = .nmi then 0xFFFA else 0xFFFE := by
  cases kind <;> first | rfl | exact absurd rfl h

theorem Interrupt.stored_pushes (kind : Interrupt) (mem : Addr → Byte) (r : Registers) {addr : Addr}
    (h : 0x0200 ≤ addr) : stored mem (kind.pushes r) addr = mem addr := by
  refine stored_of_not_written mem addr fun a ha _ => ?_
  unfold pushes at ha
  split at ha
  · simp only [List.mem_cons, List.not_mem_nil, or_false] at ha
    rcases ha with rfl | rfl | rfl <;> exact Cpu.stackAddr_ne h
  · cases ha

/-- The handler's address is what lies at the vector before the pushes, since no vector is in page
one. -/
theorem Bus.Holds.vector_of_entry {cell : β → Addr → Byte} (hc : Bus.Holds cell) {kind : Interrupt}
    {r : Registers} {lo hi : Byte} {b b' : β} (hs : Serves b (kind.entry r lo hi) b') :
    lo = cell b kind.vector ∧ hi = cell b (kind.vector + 1) := by
  rw [← kind.stored_pushes (cell b) r (by cases kind <;> decide),
    ← kind.stored_pushes (cell b) r (by cases kind <;> decide)]
  constructor
  · exact hc.read_served (kind.pushes r) hs
  · have hs : Serves b ((kind.pushes r ++ [⟨.read, kind.vector, lo⟩]) ++
        [⟨.read, kind.vector + 1, hi⟩]) b' := by rwa [List.append_assoc]
    have high := hc.read_served _ hs
    rwa [stored_append] at high

namespace Cpu

theorem Takes.idle {c : Cpu} {b : β} : Takes none c b (c.latch none) b where
  latch := rfl
  passed _ := ⟨rfl, rfl⟩
  reset h := by cases h
  saved h := by cases h

theorem Takes.masked {c : Cpu} {kind : Interrupt} (hm : c.Masks kind) {b : β} :
    Takes (some kind) c b (c.latch none) b where
  latch := rfl
  passed _ := ⟨rfl, rfl⟩
  reset h := by
    cases h
    exact absurd hm.1 (by decide)
  saved h _ hi := by
    cases h
    exact absurd hm.2 (by rw [hi hm.1]; decide)

theorem Takes.serviced {c : Cpu} {kind : Interrupt} (hm : ¬ c.Masks kind) {b b' : β} {lo hi : Byte}
    (hs : Serves b (kind.entry c.regs lo hi) b') :
    Takes (some kind) c b ((c.latch none).mapRegs (entered kind (word lo hi))) b' where
  latch := rfl
  passed h := by
    rcases h with h | ⟨h, hi⟩ <;> cases h
    exact absurd ⟨rfl, hi⟩ hm
  reset h := by
    cases h
    exact ⟨lo, hi, hs, rfl, fun cell hc => ⟨hc.served hs, hc.vector_of_entry hs⟩⟩
  saved {kind'} h hr _ := by
    cases h
    rw [← Interrupt.pushes_of_ne_reset hr c.regs, ← Interrupt.vector_of_ne_reset hr]
    have regs : entered kind (word lo hi) c.regs =
        { c.regs with
          sp := c.regs.sp - 3
          flags := { c.regs.flags with interruptDisable := true }
          pc := UInt16.ofNat (lo.toNat + 256 * hi.toNat) } := by
      cases kind <;> first | rfl | exact absurd rfl hr
    refine ⟨lo, hi, hs, ?_, fun cell hc => ⟨?_, hc.vector_of_entry hs⟩⟩
    · rw [← regs]
      rfl
    · rw [hc.served hs, Interrupt.entry, stored_append]
      rfl

theorem Servicing.takes {taken : Option Interrupt} {c c' : Cpu} {b b' : β} {es : List Event}
    (h : Servicing (c.latch taken) es (.done c' ())) (ha : Answers b es b') :
    Takes taken c b c' b' := by
  cases h with
  | idle hp =>
    obtain rfl : taken = none := hp
    cases ha
    exact Takes.idle
  | @masked kind hp hm =>
    obtain rfl : taken = some kind := hp
    cases ha with
    | note _ rest =>
      cases rest
      have hm : c.Masks kind := hm
      exact Takes.masked hm
  | @entered kind hp hm lo hi =>
    obtain rfl : taken = some kind := hp
    have hm : ¬ c.Masks kind := hm
    exact Takes.serviced hm ha.serves_noted

theorem Settling.takes {c c' : Cpu} {b b' : β} {es : List Event} (h : Settling c es (.done c' ()))
    (ha : Answers b es b') : ∃ line b₁, Bus.poll b = (.ok line, b₁) ∧
      Takes (c.latched line) c b₁ c' b' := by
  cases h with
  | polled line ns hs =>
    cases ha with
    | poll hp rest => exact ⟨line, _, hp, hs.takes rest.of_notes⟩

theorem Course.latched {c c' : Cpu} {es : List Event} {view : View}
    (h : Course c es (.done c' view)) (line : Bool) :
    c'.latched line = c.taken view.instruction line := by
  obtain ⟨-, -, -, -, -, hp⟩ := h.of_done
  rw [Cpu.latched, hp]
  rfl

end Cpu

namespace Machine

omit [Observer ω] in
/-- Behind an instruction that completes the line is polled, and a request is taken up. -/
theorem takes_of_settled {m : Machine β ω} {view : View} (hi : m.instruct.outcome = .ok view)
    {b : β} (hs : (Cpu.settle.on m.instruct.state b).outcome = .ok ()) :
    let settled := Cpu.settle.on m.instruct.state b
    ∃ line b₁, Bus.poll b = (.ok line, b₁) ∧
      Cpu.Takes (m.cpu.taken view.instruction line) m.instruct.state b₁ settled.state
        settled.bus := by
  obtain ⟨settling, served⟩ := (Cpu.settle_ensures m.instruct.state).on_ok hs
  obtain ⟨line, b₁, polled, takes⟩ := settling.takes served
  have latched : m.instruct.state.latched line = m.cpu.taken view.instruction line :=
    (m.cpu.instruction_ensures.on_ok hi).1.latched line
  rw [latched] at takes
  exact ⟨line, b₁, polled, takes⟩

/-- How a step that completes takes up a request. The instruction leaves the processor and the bus
as `m.instruct` says; the line is polled on the bus `b`, once the observers have been told. -/
theorem step_takes_interrupt {m m' : Machine β ω} (h : m.step = (.ok (), m')) :
    ∃ opcode i told b line b₁,
      (Bus.read m.bus m.cpu.regs.pc).1 = .ok opcode ∧ Instruction.decode opcode = some i ∧
      m.instruct.outcome = .ok (m.instruct.state.view i) ∧
      Serves m.instruct.bus told b ∧ WritesNothing told ∧ (m.observers = [] → told = []) ∧
      (Bus.Quiet β → b = m.instruct.bus) ∧ Bus.poll b = (.ok line, b₁) ∧
      (∀ cell, Bus.Holds cell → cell b = cell m.instruct.bus ∧ cell b₁ = cell m.instruct.bus) ∧
      Cpu.Takes (m.cpu.taken i line) m.instruct.state b₁ m'.cpu m'.bus := by
  obtain ⟨view, hi, hn, hs, he, hb⟩ := step_eq_ok h
  obtain ⟨opcode, fetched, hd, hv⟩ := fetched_of_instruct hi
  obtain ⟨line, b₁, polled, takes⟩ := takes_of_settled hi hs
  have hcpu : m'.cpu = (Cpu.settle.on m.instruct.state (m.tell view).bus).state := by rw [he]
  refine ⟨opcode, view.instruction, m.told view, (m.tell view).bus, line, b₁, fetched, hd, ?_,
    serves_told hn, m.writesNothing_told view, fun h => told_of_nil h view,
    fun hq => hq.served (serves_told hn) (m.writesNothing_told view), polled, fun cell hc => ?_, ?_⟩
  · rw [hi]
    exact congrArg Except.ok hv
  · have same : cell (m.tell view).bus = cell m.instruct.bus := by
      rw [hc.served (serves_told hn), (m.writesNothing_told view).stored]
    exact ⟨same, (hc.poll polled).trans same⟩
  · rw [hcpu, hb]
    exact takes

/-- The line has been asking for an interrupt, and `CLI` lets it in, unless another request is latched.
The stack pointer wraps. -/
def unmasking (pending : Option Interrupt) : Machine Wired Empty where
  cpu := { regs := { sp := 0x01, pc := 0x8000, flags := { interruptDisable := true } }, pending }
  bus := {
    memory := (Memory.zero.write 0x8000 0x58).store 0xFFFA [0x34, 0xA0, 0x00, 0x00, 0x12, 0x90]
    line := true }

theorem unmasking_takes_irq_or_nmi :
    let irq := unmasking none
    let nmi := unmasking (some .nmi)
    (Cpu.Takes (some .irq) irq.instruct.state irq.instruct.bus irq.step.2.cpu irq.step.2.bus ∧
      irq.step.2.cpu.regs.pc = 0x9012) ∧
    (Cpu.Takes (some .nmi) nmi.instruct.state nmi.instruct.bus nmi.step.2.cpu nmi.step.2.bus ∧
      nmi.step.2.cpu.regs.pc = 0xA034) ∧
    [0x0101, 0x0100, 0x01FF].map irq.step.2.bus.memory.read = [0x80, 0x01, 0x20] := by
  have taken (m : Machine Wired Empty) (completes : m.step = (.ok (), m.step.2))
      (fetches : (Bus.read m.bus m.cpu.regs.pc).1 = .ok 0x58)
      (polls : (Bus.poll m.instruct.bus).1 = .ok true) :
      Cpu.Takes (m.cpu.pending.or (some .irq)) m.instruct.state m.instruct.bus m.step.2.cpu
        m.step.2.bus := by
    obtain ⟨opcode, i, told, b, line, b₁, fetched, decoded, -, -, -, -, same, polled, -, takes⟩ :=
      step_takes_interrupt completes
    obtain rfl : 0x58 = opcode := Except.ok.inj (fetches.symm.trans fetched)
    obtain rfl : Instruction.mk 0x58 .CLI .implicit = i := Option.some.inj decoded
    obtain rfl := same Wired.quiet
    rw [polled] at polls
    obtain rfl : line = true := Except.ok.inj polls
    obtain rfl : b₁ = m.instruct.bus := (congrArg Prod.snd polled).symm
    rw [Cpu.taken, if_neg (by decide), Option.or_none, if_pos rfl] at takes
    exact takes
  exact ⟨⟨taken (unmasking none) rfl rfl rfl, rfl⟩,
    ⟨taken (unmasking (some .nmi)) rfl rfl rfl, rfl⟩, rfl⟩

end Machine

end Mos6502
