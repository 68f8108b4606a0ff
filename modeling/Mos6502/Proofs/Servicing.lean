import Mos6502.Proofs.Course

namespace Mos6502

def Interrupt.pushes (kind : Interrupt) (r : Registers) : List Access :=
  if kind.savesState then
    [⟨.write, Cpu.stackAddr r.sp, highByte r.pc⟩, ⟨.write, Cpu.stackAddr (r.sp - 1), lowByte r.pc⟩,
      ⟨.write, Cpu.stackAddr (r.sp - 2), r.flags.toByte kind.breakBit⟩]
  else []

/-- The accesses by which `kind` is serviced, in a state with registers `r`; the vector holds the
bytes `lo` and `hi`. -/
def Interrupt.entry (kind : Interrupt) (r : Registers) (lo hi : Byte) : List Access :=
  kind.pushes r ++ [⟨.read, kind.vector, lo⟩, ⟨.read, kind.vector + 1, hi⟩]

namespace Cpu

/-- The registers with which the handler at `target` begins. -/
def entered (kind : Interrupt) (target : Addr) (r : Registers) : Registers :=
  let sp := if kind.savesState then r.sp - 3 else r.sp
  { r with sp, flags := r.flags.set .interruptDisable true, pc := target }

/-- Whether `c` holds off an interrupt. -/
def Masks (c : Cpu) (kind : Interrupt) : Prop :=
  kind = .irq ∧ c.regs.flags.interruptDisable = true

instance (c : Cpu) (kind : Interrupt) : Decidable (c.Masks kind) :=
  inferInstanceAs (Decidable (_ ∧ _))

/-- What is latched in `c` once the line has been polled. -/
def latched (c : Cpu) (line : Bool) : Option Interrupt :=
  c.pending.or (if line then some .irq else none)

/-- How servicing the request latched in `c` can go. -/
inductive Servicing (c : Cpu) : Post Cpu Unit
  | idle (hp : c.pending = none) : Servicing c [] (.done c ())
  | masked {kind : Interrupt} (hp : c.pending = some kind) (hm : c.Masks kind) :
      Servicing c [.note (.log (.irqMasked c.regs.pc))] (.done (c.latch none) ())
  | entered {kind : Interrupt} (hp : c.pending = some kind) (hm : ¬ c.Masks kind) (lo hi : Byte) :
      Servicing c
        ((kind.entry c.regs lo hi).map .access ++
          [.note (.log (.servicing kind c.regs.pc (word lo hi)))])
        (.done ((c.latch none).mapRegs (entered kind (word lo hi))) ())
  | refused {es : List Event} {c' : Cpu} (hp : c'.pending = none)
      (hf : c'.regs.flags = c.regs.flags) {why : Cut} (hw : ∀ a, why ≠ .abort a) :
      Servicing c es (.cut c' why)

theorem Servicing.pending_of_done {c c' : Cpu} {es : List Event}
    (h : c.Servicing es (.done c' ())) : c'.pending = none := by
  cases h with
  | idle hp => exact hp
  | masked | entered => rfl

theorem Servicing.pending_of_cut {c c' : Cpu} {es : List Event} {why : Cut}
    (h : c.Servicing es (.cut c' why)) : c'.pending = none := by
  cases h with
  | refused hp => exact hp

variable (c : Cpu)

theorem ensures_save (kind : Interrupt) (Q : Post Cpu Unit) : (save kind).Ensures c Q ↔
    Q [] (.cut c (.refusedWrite (stackAddr c.regs.sp) (highByte c.regs.pc))) ∧
      Q [.access ⟨.write, stackAddr c.regs.sp, highByte c.regs.pc⟩]
        (.cut (c.setSp (c.regs.sp - 1))
          (.refusedWrite (stackAddr (c.regs.sp - 1)) (lowByte c.regs.pc))) ∧
      Q [.access ⟨.write, stackAddr c.regs.sp, highByte c.regs.pc⟩,
          .access ⟨.write, stackAddr (c.regs.sp - 1), lowByte c.regs.pc⟩]
        (.cut (c.setSp (c.regs.sp - 2))
          (.refusedWrite (stackAddr (c.regs.sp - 2)) (c.regs.flags.toByte kind.breakBit))) ∧
      Q [.access ⟨.write, stackAddr c.regs.sp, highByte c.regs.pc⟩,
          .access ⟨.write, stackAddr (c.regs.sp - 1), lowByte c.regs.pc⟩,
          .access ⟨.write, stackAddr (c.regs.sp - 2), c.regs.flags.toByte kind.breakBit⟩]
        (.done (c.setSp (c.regs.sp - 3)) ()) := by
  have three : c.regs.sp - 2 - 1 = c.regs.sp - 3 := by grind
  simp [save, ensures_pushWord, three]

theorem enter_ensures {kind : Interrupt} (hp : c.pending = some kind) (hm : ¬ c.Masks kind) :
    (enter kind).Ensures (c.latch none) (Servicing c) := by
  have done (lo hi : Byte) := Servicing.entered hp hm lo hi
  have stop {es : List Event} {c' : Cpu} {why : Cut} (hp : c'.pending = none)
      (hf : c'.regs.flags = c.regs.flags) (hw : ∀ a, why ≠ .abort a) :
      Servicing c es (.cut c' why) := .refused hp hf hw
  unfold Interrupt.entry Interrupt.pushes entered at done
  unfold enter
  cases hs : kind.savesState <;> rw [hs] at done
  · simp only [handler, Micro.ensures_bind, Micro.ensures_readWord, Micro.ensures_get,
      Micro.ensures_log, ensures_modifyRegs, Finish.then_done, Finish.then_cut, List.nil_append,
      List.cons_append, Bool.false_eq_true, if_false]
    exact ⟨stop rfl rfl (by simp), fun lo => ⟨stop rfl rfl (by simp), fun hi => done lo hi⟩⟩
  · simp only [handler, Micro.ensures_bind, ensures_save, Micro.ensures_readWord,
      Micro.ensures_get, Micro.ensures_log, ensures_modifyRegs, Finish.then_done, Finish.then_cut,
      List.nil_append, List.cons_append, if_true]
    refine ⟨stop rfl rfl (by simp), stop rfl rfl (by simp), stop rfl rfl (by simp),
      stop rfl rfl (by simp), ?_⟩
    exact fun lo => ⟨stop rfl rfl (by simp), fun hi => done lo hi⟩

theorem service_ensures : service.Ensures c (Servicing c) := by
  unfold service
  simp only [Micro.ensures_bind, Micro.ensures_get, Finish.then_done, List.nil_append]
  cases hp : c.pending with
  | none =>
    rw [Micro.ensures_pure]
    exact .idle hp
  | some kind =>
    simp only [Micro.ensures_bind, Micro.ensures_modify, Micro.ensures_ite, Micro.ensures_log,
      Finish.then_done, List.nil_append]
    split
    · exact .masked hp ‹_›
    · exact c.enter_ensures hp ‹_›

theorem service_of_neverFaults {β : Type} [Bus β] {b : β} (hf : Bus.NeverFaults b) :
    (service.on c b).outcome = .ok () := by
  cases ho : (service.on c b).outcome with
  | ok _ => rfl
  | error why =>
    obtain ⟨servicing, -⟩ := (service_ensures c).on_abort hf ho
    generalize service.events c b = es at servicing
    cases servicing with
    | refused _ _ hw => exact absurd rfl (hw why)

theorem reset_on {β : Type} [Bus β] (b : β) :
    reset.on c b = service.on (c.latch (some .reset)) b := by simp [reset]

/-- How settling behind the instruction that left `c` can go. -/
inductive Settling (c : Cpu) : Post Cpu Unit
  | unpolled : Settling c [] (.cut c .refusedPoll)
  | polled (line : Bool) (ns : List Note) {es : List Event} {o : Finish Cpu Unit}
      (hs : Servicing (c.latch (c.latched line)) es o) :
      Settling c (.poll line :: (ns.map .note ++ es)) o

theorem Settling.pending_of_done {c c' : Cpu} {es : List Event}
    (h : c.Settling es (.done c' ())) : c'.pending = none := by
  cases h with
  | polled _ _ hs => exact hs.pending_of_done

theorem Settling.ne_abort {c c' : Cpu} {es : List Event} {why : Cut}
    (h : Settling c es (.cut c' why)) (a : Abort) : why ≠ .abort a := by
  cases h with
  | unpolled => nofun
  | polled line _ hs =>
    cases hs with
    | refused _ _ hw => exact hw a

theorem settle_on_of_fault {β : Type} [Bus β] {b b' : β} {f : Fault}
    (h : Bus.poll b = (.error f, b')) : settle.on c b = ⟨.error (.fault f), c, b', []⟩ := by
  rw [settle, Micro.on_bind, Micro.on_poll, h]
  rfl

/-- A request of the line that finds the latch taken leaves it as it is, and is noted. -/
theorem settle_on {β : Type} [Bus β] {b b' : β} {line : Bool} (h : Bus.poll b = (.ok line, b')) :
    ∃ ns, settle.on c b = (service.on (c.latch (c.latched line)) b').after ns := by
  have polled : (Micro.poll : Micro Cpu Bool).on c b = ⟨.ok line, c, b', []⟩ := by
    rw [Micro.on_poll, h]
    rfl
  unfold settle latched
  cases line with
  | false =>
    have same : c.latch c.pending = c := rfl
    exact ⟨[], by simp [polled, same]⟩
  | true =>
    cases hp : c.pending with
    | none => exact ⟨[], by simp [polled, request, hp]⟩
    | some kind =>
      have same : c.latch (some kind) = c := by rw [← hp]; rfl
      exact ⟨[.log (.dropped .irq kind)], by simp [polled, request, hp, same]⟩

theorem settle_of_ok {β : Type} [Bus β] {b : β} (h : (settle.on c b).outcome = .ok ()) :
    ∃ line b' ns, Bus.poll b = (.ok line, b') ∧
      settle.on c b = (service.on (c.latch (c.latched line)) b').after ns := by
  rcases hp : Bus.poll b with ⟨f | line, b'⟩
  · rw [settle_on_of_fault c hp] at h
    cases h
  · obtain ⟨ns, run⟩ := settle_on c hp
    exact ⟨line, b', ns, rfl, run⟩

theorem settle_ensures : settle.Ensures c (Settling c) := by
  unfold settle
  simp only [Micro.ensures_bind, Micro.ensures_poll, Micro.ensures_ite, ensures_request,
    Finish.then_done, List.nil_append, List.singleton_append]
  refine ⟨.unpolled, fun line => ?_⟩
  have settling (ns : List Note) {c' : Cpu} (hc : c.latch (c.latched line) = c') :
      service.Ensures c' fun es o => Settling c (.poll line :: (ns.map .note ++ es)) o :=
    (service_ensures c').mono fun es o h => .polled line ns (hc ▸ h)
  unfold latched at settling
  -- a request of the line that finds the latch taken leaves it as it is
  cases line with
  | false => exact settling [] (by rw [if_neg (by decide), Option.or_none]; rfl)
  | true =>
    cases hp : c.pending with
    | none => exact settling [] (by rw [hp, if_pos rfl, Option.none_or])
    | some kind =>
      have full : c.latch (some kind) = c := by rw [← hp]; rfl
      exact settling [.log (.dropped .irq kind)] (by rw [hp, Option.some_or, full])

end Cpu

end Mos6502
