import Mos6502.Execute
import Mos6502.Proofs.Lookup

namespace Mos6502

def Instruction.needsTarget (i : Instruction) : Bool :=
  match i.mnemonic.operation with
  | .load _ | .store _ | .add | .subtract | .logic _ | .compare _ | .bumpMemory _ | .branch _ _
  | .jump | .call => true
  | .shift _ => i.mode != .accumulator
  | _ => false

theorem Instruction.hasAddress_of_needsTarget {opcode : Byte} {i : Instruction}
    (h : decode opcode = some i) (hi : i.needsTarget) : i.mode.hasAddress := by
  have all : ∀ j ∈ documented, j.needsTarget → j.mode.hasAddress := by decide +kernel
  exact all i (decode_eq_some_iff.1 h).1 hi

theorem Mnemonic.mem_all (mnemonic : Mnemonic) : mnemonic ∈ all := by
  cases mnemonic <;> decide

/-- No two mnemonics stand for one operation, but for those that are not carried out. -/
theorem Mnemonic.operation_eq_iff {mnemonic : Mnemonic} (other : Mnemonic)
    (hs : other.supported = true) : mnemonic.operation = other.operation ↔ mnemonic = other := by
  have table : ∀ m ∈ all, ∀ n ∈ all, n.supported = true → m.operation = n.operation → m = n := by
    decide +kernel
  constructor
  · intro h
    exact table mnemonic mnemonic.mem_all other other.mem_all hs h
  · intro h
    rw [h]

def Operation.usesStack : Operation → Bool
  | .call | .ret | .returnFromInterrupt => true
  | _ => false

namespace Cpu

def setSp (sp : Byte) (c : Cpu) : Cpu := c.mapRegs (·.set .sp sp)

def setFlags (flags : Flags) (c : Cpu) : Cpu := c.mapRegs (·.setFlags flags)

section Fields

variable (c : Cpu) (sp sp' : Byte) (flags flags' : Flags) (pc : Addr) (f : Registers → Registers)
  (i : Instruction) (opcode : Byte) (pending : Option Interrupt)

@[simp] theorem setSp_setSp : (c.setSp sp).setSp sp' = c.setSp sp' := rfl

@[simp] theorem setSp_setFlags : (c.setFlags flags).setSp sp = (c.setSp sp).setFlags flags := rfl

@[simp] theorem mapRegs_setFlags : c.mapRegs (·.setFlags flags) = c.setFlags flags := rfl

@[simp] theorem sp_setSp : (c.setSp sp).regs.sp = sp := rfl

@[simp] theorem sp_setFlags : (c.setFlags flags).regs.sp = c.regs.sp := rfl

end Fields

section Stack

variable (c : Cpu) (Q : Post Cpu Unit)

@[simp] theorem ensures_push (v : Byte) : (push v).Ensures c Q ↔
    Q [] (.cut c (.refusedWrite (stackAddr c.regs.sp) v)) ∧
      Q [.access ⟨.write, stackAddr c.regs.sp, v⟩] (.done (c.setSp (c.regs.sp - 1)) ()) :=
  Iff.rfl

@[simp] theorem ensures_pop (Q : Post Cpu Byte) : pop.Ensures c Q ↔
    Q [] (.cut (c.setSp (c.regs.sp + 1)) (.refusedRead (stackAddr (c.regs.sp + 1)))) ∧ ∀ v,
      Q [.access ⟨.read, stackAddr (c.regs.sp + 1), v⟩] (.done (c.setSp (c.regs.sp + 1)) v) :=
  Iff.rfl

theorem ensures_pushWord (w : Addr) : (pushWord w).Ensures c Q ↔
    Q [] (.cut c (.refusedWrite (stackAddr c.regs.sp) (highByte w))) ∧
      Q [.access ⟨.write, stackAddr c.regs.sp, highByte w⟩]
        (.cut (c.setSp (c.regs.sp - 1)) (.refusedWrite (stackAddr (c.regs.sp - 1)) (lowByte w))) ∧
      Q [.access ⟨.write, stackAddr c.regs.sp, highByte w⟩,
          .access ⟨.write, stackAddr (c.regs.sp - 1), lowByte w⟩]
        (.done (c.setSp (c.regs.sp - 2)) ()) := by
  have two : c.regs.sp - 1 - 1 = c.regs.sp - 2 := by grind
  simp [pushWord, two]

theorem ensures_popWord (Q : Post Cpu Addr) : popWord.Ensures c Q ↔
    Q [] (.cut (c.setSp (c.regs.sp + 1)) (.refusedRead (stackAddr (c.regs.sp + 1)))) ∧ ∀ lo,
      Q [.access ⟨.read, stackAddr (c.regs.sp + 1), lo⟩]
        (.cut (c.setSp (c.regs.sp + 2)) (.refusedRead (stackAddr (c.regs.sp + 2)))) ∧ ∀ hi,
        Q [.access ⟨.read, stackAddr (c.regs.sp + 1), lo⟩,
            .access ⟨.read, stackAddr (c.regs.sp + 2), hi⟩]
          (.done (c.setSp (c.regs.sp + 2)) (word lo hi)) := by
  have two : c.regs.sp + 1 + 1 = c.regs.sp + 2 := by grind
  simp [popWord, two]

theorem ensures_request (kind : Interrupt) (Q : Post Cpu Bool) : (request kind).Ensures c Q ↔
    match c.pending with
    | some pending => Q [.note (.log (.dropped kind pending))] (.done c false)
    | none => Q [] (.done (c.latch (some kind)) true) := by
  simp only [request, Micro.ensures_bind, Micro.ensures_get, Finish.then_done]
  cases c.pending <;> simp

end Stack

/-- The address `i` pushes when it calls a subroutine: that of its last byte. -/
def lastByte (i : Instruction) (c : Cpu) : Addr := c.regs.pc + UInt16.ofNat i.size - 1

variable (i : Instruction) (target : Option Addr) (c : Cpu)

/-- An operation of `i`, begun in `c`, can have these events and lead to this state. -/
inductive Performs : Operation → List Event → Cpu → Prop
  | load {addr : Addr} (ht : target = some addr) (reg : Reg) (m : Byte) :
      Performs (.load reg) [.access ⟨.read, addr, m⟩] (c.mapRegs (·.load reg m))
  | store {addr : Addr} (ht : target = some addr) (reg : Reg) :
      Performs (.store reg) [.access ⟨.write, addr, c.regs.get reg⟩] c
  | add {addr : Addr} (ht : target = some addr) (m : Byte) :
      Performs .add [.access ⟨.read, addr, m⟩] (c.mapRegs (·.add m))
  | subtract {addr : Addr} (ht : target = some addr) (m : Byte) :
      Performs .subtract [.access ⟨.read, addr, m⟩] (c.mapRegs (·.subtract m))
  | logic {addr : Addr} (ht : target = some addr) (op : Logic) (m : Byte) :
      Performs (.logic op) [.access ⟨.read, addr, m⟩]
        (c.mapRegs fun r => r.load .a (op.apply r.a m))
  | compare {addr : Addr} (ht : target = some addr) (reg : Reg) (m : Byte) :
      Performs (.compare reg) [.access ⟨.read, addr, m⟩] (c.mapRegs (·.compare reg m))
  | shiftAccumulator (hm : i.mode = .accumulator) (s : Shift) :
      Performs (.shift s) [] (c.mapRegs fun r =>
        (r.setCarry (s.apply r.a r.flags.carry).2).load .a (s.apply r.a r.flags.carry).1)
  | shiftMemory {addr : Addr} (hm : i.mode ≠ .accumulator) (ht : target = some addr) (s : Shift)
      (v : Byte) :
      Performs (.shift s)
        [.access ⟨.read, addr, v⟩, .access ⟨.write, addr, (s.apply v c.regs.flags.carry).1⟩]
        (c.mapRegs fun r =>
          (r.setCarry (s.apply v r.flags.carry).2).describe (s.apply v r.flags.carry).1)
  | bumpMemory {addr : Addr} (ht : target = some addr) (d v : Byte) :
      Performs (.bumpMemory d) [.access ⟨.read, addr, v⟩, .access ⟨.write, addr, v + d⟩]
        (c.mapRegs (·.describe (v + d)))
  | bump (reg : Reg) (d : Byte) :
      Performs (.bump reg d) [] (c.mapRegs fun r => r.load reg (r.get reg + d))
  | branchTaken {addr : Addr} (ht : target = some addr) {flag : Flag} {value : Bool}
      (hf : c.regs.flags.get flag = value) : Performs (.branch flag value) [] (c.goTo addr)
  | branchNotTaken {flag : Flag} {value : Bool} (hf : c.regs.flags.get flag ≠ value) :
      Performs (.branch flag value) [] c
  | jump {addr : Addr} (ht : target = some addr) : Performs .jump [] (c.goTo addr)
  | call {addr : Addr} (ht : target = some addr) :
      Performs .call
        [.access ⟨.write, stackAddr c.regs.sp, highByte (c.lastByte i)⟩,
          .access ⟨.write, stackAddr (c.regs.sp - 1), lowByte (c.lastByte i)⟩]
        ((c.setSp (c.regs.sp - 2)).goTo addr)
  | ret (lo hi : Byte) :
      Performs .ret
        [.access ⟨.read, stackAddr (c.regs.sp + 1), lo⟩,
          .access ⟨.read, stackAddr (c.regs.sp + 2), hi⟩]
        ((c.setSp (c.regs.sp + 2)).goTo (word lo hi + 1))
  | returnFromInterrupt (p lo hi : Byte) :
      Performs .returnFromInterrupt
        [.access ⟨.read, stackAddr (c.regs.sp + 1), p⟩,
          .access ⟨.read, stackAddr (c.regs.sp + 2), lo⟩,
          .access ⟨.read, stackAddr (c.regs.sp + 3), hi⟩]
        (((c.setSp (c.regs.sp + 3)).setFlags (Flags.ofByte p)).goTo (word lo hi))
  | brk (hp : c.pending = none) : Performs .brk [] (c.latch (some .brk))
  | brkDropped {kind : Interrupt} (hp : c.pending = some kind) :
      Performs .brk [.note (.log (.dropped .brk kind))] c
  | setFlag (flag : Flag) (value : Bool) :
      Performs (.setFlag flag value) []
        (c.mapRegs fun r => r.setFlags (r.flags.set flag value))
  | transfer (source target : Reg) :
      Performs (.transfer source target) [] (c.mapRegs (·.transfer source target))
  | nop : Performs .nop [] c

theorem Performs.pending {i : Instruction} {target : Option Addr} {c c' : Cpu} {op : Operation}
    {es : List Event} (h : Performs i target c op es c') :
    c'.pending = c.pending.or (if op = .brk then some .brk else none) := by
  cases h with
  | brk hp => rw [hp, if_pos rfl]; rfl
  | brkDropped hp => rw [hp]; rfl
  | _ => exact Option.or_none.symm

theorem Performs.executed {i : Instruction} {target : Option Addr} {c c' : Cpu} {op : Operation}
    {es : List Event} (h : Performs i target c op es c') : c'.executed = c.executed := by
  cases h <;> rfl

theorem Performs.current {i : Instruction} {target : Option Addr} {c c' : Cpu} {op : Operation}
    {es : List Event} (h : Performs i target c op es c') : c'.current = c.current := by
  cases h <;> rfl

theorem Performs.unpolled {i : Instruction} {target : Option Addr} {c c' : Cpu} {op : Operation}
    {es : List Event} (h : Performs i target c op es c') : Unpolled es := by
  cases h <;> simp

theorem Performs.ne_unsupported {i : Instruction} {target : Option Addr} {c c' : Cpu}
    {op : Operation} {es : List Event} (h : Performs i target c op es c') : op ≠ .unsupported := by
  rintro rfl
  cases h

/-- An operation of `i`, begun in `c`, can be cut short after these events by an access that is
refused, and then leaves this state. -/
inductive Falters : Operation → List Event → Cpu → Cut → Prop
  | plain {op : Operation} (hop : op.usesStack = false) {es : List Event} (hes : OnlyReads es)
      {why : Cut} (hw : why.AtAccess) : Falters op es c why
  | callHigh :
      Falters .call [] c (.refusedWrite (stackAddr c.regs.sp) (highByte (c.lastByte i)))
  | callLow :
      Falters .call [.access ⟨.write, stackAddr c.regs.sp, highByte (c.lastByte i)⟩]
        (c.setSp (c.regs.sp - 1))
        (.refusedWrite (stackAddr (c.regs.sp - 1)) (lowByte (c.lastByte i)))
  | retLow :
      Falters .ret [] (c.setSp (c.regs.sp + 1)) (.refusedRead (stackAddr (c.regs.sp + 1)))
  | retHigh (lo : Byte) :
      Falters .ret [.access ⟨.read, stackAddr (c.regs.sp + 1), lo⟩] (c.setSp (c.regs.sp + 2))
        (.refusedRead (stackAddr (c.regs.sp + 2)))
  | returnStatus :
      Falters .returnFromInterrupt [] (c.setSp (c.regs.sp + 1))
        (.refusedRead (stackAddr (c.regs.sp + 1)))
  | returnLow (p : Byte) :
      Falters .returnFromInterrupt [.access ⟨.read, stackAddr (c.regs.sp + 1), p⟩]
        ((c.setSp (c.regs.sp + 2)).setFlags (Flags.ofByte p))
        (.refusedRead (stackAddr (c.regs.sp + 2)))
  | returnHigh (p lo : Byte) :
      Falters .returnFromInterrupt
        [.access ⟨.read, stackAddr (c.regs.sp + 1), p⟩,
          .access ⟨.read, stackAddr (c.regs.sp + 2), lo⟩]
        ((c.setSp (c.regs.sp + 3)).setFlags (Flags.ofByte p))
        (.refusedRead (stackAddr (c.regs.sp + 3)))

theorem Falters.notes {i : Instruction} {c c' : Cpu} {op : Operation} {es : List Event} {why : Cut}
    (h : Falters i c op es c' why) : notes es = [] := by
  cases h with
  | plain _ hes => exact hes.notes
  | _ => rfl

theorem Falters.unpolled {i : Instruction} {c c' : Cpu} {op : Operation} {es : List Event}
    {why : Cut} (h : Falters i c op es c' why) : Unpolled es := by
  cases h with
  | plain _ hes => exact hes.unpolled
  | _ => simp

theorem Falters.pending {i : Instruction} {c c' : Cpu} {op : Operation} {es : List Event}
    {why : Cut} (h : Falters i c op es c' why) : c'.pending = c.pending := by
  cases h <;> rfl

theorem Falters.atAccess {i : Instruction} {c c' : Cpu} {op : Operation} {es : List Event}
    {why : Cut} (h : Falters i c op es c' why) : why.AtAccess := by
  cases h with
  | plain _ _ hw => exact hw
  | _ => trivial

theorem Falters.ne_abort {i : Instruction} {c c' : Cpu} {op : Operation} {es : List Event}
    {why : Cut} (h : Falters i c op es c' why) (a : Abort) : why ≠ .abort a :=
  h.atAccess.ne_abort a

inductive Executing (op : Operation) : Post Cpu Unit
  | performed {es : List Event} {c' : Cpu} (h : Performs i target c op es c') :
      Executing op es (.done c' ())
  | refused {es : List Event} {c' : Cpu} {why : Cut} (h : Falters i c op es c' why) :
      Executing op es (.cut c' why)
  | unsupported (h : op = .unsupported) :
      Executing op [] (.cut c (.abort (.error (.notImplemented i c.regs.pc))))

section Rules

variable (addr : Addr)

@[simp] theorem ensures_need (Q : Post Cpu Addr) :
    (need i (some addr)).Ensures c Q ↔ Q [] (.done c addr) := Iff.rfl

@[simp] theorem ensures_operand (Q : Post Cpu Byte) : (operand i (some addr)).Ensures c Q ↔
    Q [] (.cut c (.refusedRead addr)) ∧ ∀ m, Q [.access ⟨.read, addr, m⟩] (.done c m) := Iff.rfl

@[simp] theorem ensures_modifyRegs (f : Registers → Registers) (Q : Post Cpu Unit) :
    (modifyRegs f).Ensures c Q ↔ Q [] (.done (c.mapRegs f) ()) := Iff.rfl

@[simp] theorem ensures_jump (Q : Post Cpu Unit) :
    (jump addr).Ensures c Q ↔ Q [] (.done (c.goTo addr) ()) := Iff.rfl

@[simp] theorem ensures_update (f : Registers → Byte → Byte)
    (effect : Registers → Byte → Registers) (Q : Post Cpu Unit) :
    (update i (some addr) f effect).Ensures c Q ↔
      Q [] (.cut c (.refusedRead addr)) ∧ ∀ v,
        Q [.access ⟨.read, addr, v⟩] (.cut c (.refusedWrite addr (f c.regs v))) ∧
          Q [.access ⟨.read, addr, v⟩, .access ⟨.write, addr, f c.regs v⟩]
            (.done (c.mapRegs (effect · v)) ()) := Iff.rfl

end Rules

section Kinds

variable {i target c} {op : Operation} {addr : Addr}

theorem operand_ensures (hs : op.usesStack = false) {f : Byte → Registers → Registers}
    (hp : ∀ m, Performs i (some addr) c op [.access ⟨.read, addr, m⟩] (c.mapRegs (f m))) :
    (operand i (some addr) >>= fun m => modifyRegs (f m)).Ensures c
      (Executing i (some addr) c op) := by
  simp only [Micro.ensures_bind, ensures_operand, ensures_modifyRegs, Finish.then_cut,
    Finish.then_done, List.append_nil]
  exact ⟨.refused (.plain hs onlyReads_nil trivial), fun m => .performed (hp m)⟩

theorem update_ensures (hs : op.usesStack = false) {f : Registers → Byte → Byte}
    {effect : Registers → Byte → Registers}
    (hp : ∀ v, Performs i (some addr) c op
      [.access ⟨.read, addr, v⟩, .access ⟨.write, addr, f c.regs v⟩] (c.mapRegs (effect · v))) :
    (update i (some addr) f effect).Ensures c (Executing i (some addr) c op) := by
  rw [ensures_update]
  exact ⟨.refused (.plain hs onlyReads_nil trivial), fun v =>
    ⟨.refused (.plain hs (by simp) trivial), .performed (hp v)⟩⟩

theorem store_ensures (reg : Reg) : (do
    let addr ← need i (some addr)
    Micro.write addr ((← get).regs.get reg)).Ensures c
      (Executing i (some addr) c (.store reg)) := by
  simp only [Micro.ensures_bind, ensures_need, Micro.ensures_get, Micro.ensures_write,
    Finish.then_done, List.nil_append]
  exact ⟨.refused (.plain rfl onlyReads_nil trivial), .performed (.store rfl reg)⟩

theorem shift_ensures (s : Shift) (ht : i.mode ≠ .accumulator → ∃ addr, target = some addr) :
    (shift i target s).Ensures c (Executing i target c (.shift s)) := by
  unfold shift
  split
  · rename_i hm
    exact .performed (.shiftAccumulator hm s)
  · rename_i hm
    obtain ⟨addr, rfl⟩ := ht hm
    exact update_ensures rfl fun v => .shiftMemory hm rfl s v

theorem branch_ensures (flag : Flag) (value : Bool) : (do
    if (← get).regs.flags.get flag = value then
      jump (← need i (some addr)) : Micro Cpu Unit).Ensures c
      (Executing i (some addr) c (.branch flag value)) := by
  simp only [Micro.ensures_bind, Micro.ensures_get, Micro.ensures_ite, Micro.ensures_pure,
    ensures_need, ensures_jump, Finish.then_done, List.append_nil]
  split
  · exact .performed (.branchTaken rfl ‹_›)
  · exact .performed (.branchNotTaken ‹_›)

theorem call_ensures : (do
    let addr ← need i (some addr)
    pushWord ((← get).regs.pc + UInt16.ofNat i.size - 1)
    jump addr).Ensures c (Executing i (some addr) c .call) := by
  simp only [Micro.ensures_bind, ensures_need, Micro.ensures_get, ensures_pushWord, ensures_jump,
    Finish.then_cut, Finish.then_done, List.nil_append, List.append_nil]
  exact ⟨.refused .callHigh, .refused .callLow, .performed (.call rfl)⟩

theorem ret_ensures : (do jump ((← popWord) + 1)).Ensures c (Executing i target c .ret) := by
  simp only [Micro.ensures_bind, ensures_popWord, ensures_jump, Finish.then_cut, Finish.then_done,
    List.append_nil]
  exact ⟨.refused .retLow, fun lo => ⟨.refused (.retHigh lo), fun hi => .performed (.ret lo hi)⟩⟩

/-- The status is popped and taken over before the address. -/
theorem returnFromInterrupt_ensures : (do
    let p ← pop
    modifyRegs (·.setFlags (Flags.ofByte p))
    jump (← popWord)).Ensures c (Executing i target c .returnFromInterrupt) := by
  have two : c.regs.sp + 1 + 1 = c.regs.sp + 2 := by grind
  have three : c.regs.sp + 1 + 2 = c.regs.sp + 3 := by grind
  simp only [Micro.ensures_bind, ensures_pop, ensures_modifyRegs, mapRegs_setFlags,
    ensures_popWord, ensures_jump, sp_setFlags, sp_setSp, setSp_setFlags, setSp_setSp, two, three,
    Finish.then_cut, Finish.then_done, List.nil_append, List.cons_append, List.append_nil]
  exact ⟨.refused .returnStatus, fun p => ⟨.refused (.returnLow p), fun lo =>
    ⟨.refused (.returnHigh p lo), fun hi => .performed (.returnFromInterrupt p lo hi)⟩⟩⟩

theorem brk_ensures : (do let _ ← request .brk : Micro Cpu Unit).Ensures c
    (Executing i target c .brk) := by
  simp only [bind_pure_comp, Micro.ensures_map, ensures_request, Finish.then_done]
  split
  · exact .performed (.brkDropped ‹_›)
  · exact .performed (.brk ‹_›)

end Kinds

theorem execute_ensures (ht : i.needsTarget → target.isSome) :
    (execute i target).Ensures c (Executing i target c i.mnemonic.operation) := by
  have found (h : i.needsTarget) : ∃ addr, target = some addr := Option.isSome_iff_exists.1 (ht h)
  unfold Instruction.needsTarget at found
  unfold execute
  cases hop : i.mnemonic.operation <;> rw [hop] at found
  case load reg =>
    obtain ⟨addr, rfl⟩ := found rfl
    exact operand_ensures rfl (.load rfl reg)
  case store reg =>
    obtain ⟨addr, rfl⟩ := found rfl
    exact store_ensures reg
  case add =>
    obtain ⟨addr, rfl⟩ := found rfl
    exact operand_ensures rfl (.add rfl)
  case subtract =>
    obtain ⟨addr, rfl⟩ := found rfl
    exact operand_ensures rfl (.subtract rfl)
  case logic op =>
    obtain ⟨addr, rfl⟩ := found rfl
    exact operand_ensures rfl (.logic rfl op)
  case compare reg =>
    obtain ⟨addr, rfl⟩ := found rfl
    exact operand_ensures rfl (.compare rfl reg)
  case shift s => exact shift_ensures s fun hm => found (by simpa using hm)
  case bumpMemory d =>
    obtain ⟨addr, rfl⟩ := found rfl
    exact update_ensures rfl (.bumpMemory rfl d)
  case bump reg d => exact .performed (.bump reg d)
  case branch flag value =>
    obtain ⟨addr, rfl⟩ := found rfl
    exact branch_ensures flag value
  case jump =>
    obtain ⟨addr, rfl⟩ := found rfl
    exact .performed (.jump rfl)
  case call =>
    obtain ⟨addr, rfl⟩ := found rfl
    exact call_ensures
  case ret => exact ret_ensures
  case returnFromInterrupt => exact returnFromInterrupt_ensures
  case brk => exact brk_ensures
  case setFlag flag value => exact .performed (.setFlag flag value)
  case transfer source target => exact .performed (.transfer source target)
  case nop => exact .performed .nop
  case unsupported => exact .unsupported rfl

end Cpu

end Mos6502
