import Mos6502.Observer.Limit
import Mos6502.Proofs.RequestLedger

namespace Mos6502

namespace Cpu

/-- The processor without the traces of its last instruction. -/
def untraced (c : Cpu) : Cpu := { c with current := none, fetched := 0 }

theorem begun_of_untraced {c c' : Cpu} (h : c'.untraced = c.untraced) (opcode : Byte)
    (i : Instruction) : c'.begun opcode i = c.begun opcode i := by
  show ({ c'.untraced with current := some i, fetched := opcode } : Cpu) =
    { c.untraced with current := some i, fetched := opcode }
  rw [h]

/-- An instruction leaves its own traces over those of the one before, unless its opcode is
undocumented: then what was under way stays, and nothing else has happened. -/
theorem instruction_of_untraced {c c' : Cpu} (h : c'.untraced = c.untraced) (b : Memory) :
    instruction.on c' b = instruction.on c b ∨ ∃ e s s',
      instruction.on c b = ⟨.error (.error e), s, b, []⟩ ∧
        instruction.on c' b = ⟨.error (.error e), s', b, []⟩ ∧ s'.untraced = s.untraced := by
  have regs : c'.regs = c.regs := (congrArg Cpu.regs h :)
  have taken (opcode : Byte) (i : Instruction) :
      (c'.fetch opcode).take i = (c.fetch opcode).take i := begun_of_untraced h opcode i
  unfold instruction
  simp only [Micro.on_bind, Micro.on_get, Ending.andThen_ok, Ending.after_nil, Micro.on_read,
    Memory.bus_read, Except.mapError, Micro.on_modify, regs]
  cases Instruction.decode (b.read c.regs.pc) with
  | none =>
    refine .inr ⟨_, _, _, Micro.on_fail .., Micro.on_fail .., ?_⟩
    show ({ c'.untraced with fetched := 0 } : Cpu) = { c.untraced with fetched := 0 }
    rw [h]
  | some i =>
    left
    simp only [Micro.on_bind, Micro.on_modify, Ending.andThen_ok, Ending.after_nil, taken]

def restarted (target : Addr) (r : Registers) : Registers :=
  { r with pc := target, flags := r.flags.set .interruptDisable true }

theorem restarted_eq {r r' : Registers} (hr : ∀ reg, r'.get reg = r.get reg)
    (hf : ∀ flag, flag ≠ .interruptDisable → r'.flags.get flag = r.flags.get flag)
    (target : Addr) : restarted target r' = restarted target r := by
  have flags : r'.flags.set .interruptDisable true = r.flags.set .interruptDisable true := by
    simp only [Flags.set, Flags.mk.injEq, true_and]
    exact ⟨hf .negative nofun, hf .overflow nofun, hf .decimal nofun, hf .zero nofun,
      hf .carry nofun⟩
  simp only [restarted, Registers.mk.injEq, flags, and_true]
  exact ⟨hr .a, hr .x, hr .y, hr .sp⟩

theorem reset_on_memory (c : Cpu) (b : Memory) : reset.on c b =
    ⟨.ok (), { c with regs := restarted (b.readWord 0xFFFC) c.regs, pending := none }, b,
      [.log (.servicing .reset c.regs.pc (b.readWord 0xFFFC))]⟩ := rfl

end Cpu

namespace Machine

variable {β ω : Type}

/-- The same machine, but for the traces of the last instruction and what is on record. -/
structure Alike (m m' : Machine β ω) : Prop where
  cpu : m'.cpu.untraced = m.cpu.untraced
  observers : m'.observers = m.observers
  stop : m'.stop = m.stop
  bus : m'.bus = m.bus

theorem Same.alike {m m' : Machine β ω} (h : Same m m') : Alike m m' := by
  obtain ⟨engine, bus⟩ := h
  refine ⟨?_, ?_, ?_, bus⟩ <;> rw [engine]

theorem Alike.log {m m' : Machine β ω} (h : Alike m m') (line line' : LogLine) :
    Alike (m.log line) (m'.log line') := by
  have logged := (Same.log m line).alike
  have logged' := (Same.log m' line').alike
  exact ⟨logged'.cpu.trans (h.cpu.trans logged.cpu.symm),
    logged'.observers.trans (h.observers.trans logged.observers.symm),
    logged'.stop.trans (h.stop.trans logged.stop.symm),
    logged'.bus.trans (h.bus.trans logged.bus.symm)⟩

section Same

variable [Bus β] [Observer ω]

theorem Same.entries {m m' : Machine β ω} (h : Same m m') : m'.entries = m.entries := by
  rcases m with ⟨engine, bus, _, _⟩
  rcases m' with ⟨engine', bus', _, _⟩
  obtain ⟨rfl, rfl⟩ := h
  rfl

theorem Same.entriesFrom {m m' : Machine β ω} (h : Same m m') (count : Nat) :
    m'.entriesFrom count = m.entriesFrom count := by
  induction count generalizing m m' with
  | zero => rfl
  | succ count ih =>
    obtain ⟨outcome, related⟩ := simulation_same.step h
    rw [Machine.entriesFrom, Machine.entriesFrom, h.entries, simulation_same.stop h]
    generalize m.step = s at outcome related ⊢
    generalize m'.step = s' at outcome related ⊢
    obtain ⟨r, m₁⟩ := s
    obtain ⟨r', m₁'⟩ := s'
    obtain rfl : r' = r := outcome
    cases r' with
    | error _ => rfl
    | ok _ => exact congrArg (if m.stop then [] else m.entries ++ ·) (ih related)

end Same

section Memory

variable {ω : Type} [Observer ω] {m m' : Machine Memory ω}

/-- Machines that differ in the traces of the last instruction make the same step. It removes the
difference, or it fails. -/
theorem Alike.step (h : Alike m m') : m'.step.1 = m.step.1 ∧ m'.entries = m.entries ∧
    (Same m.step.2 m'.step.2 ∨
      Alike m.step.2 m'.step.2 ∧ ∃ e, m.step.1 = .error (.error e)) := by
  rcases m with ⟨⟨c, _, _⟩, _, j, l⟩
  rcases m' with ⟨⟨c', os, stop'⟩, b, j', l'⟩
  obtain ⟨hc, rfl, rfl, rfl⟩ := h
  rcases Cpu.instruction_of_untraced hc b with same | ⟨e, s, s', failed, failed', left⟩
  · have run : Engine.step.on ⟨c', os, stop'⟩ b = Engine.step.on ⟨c, os, stop'⟩ b := by
      rw [Engine.step_on, Engine.step_on, same]
    have regs : c'.regs = c.regs := (congrArg Cpu.regs hc :)
    have pending : c'.pending = c.pending := (congrArg Cpu.pending hc :)
    refine ⟨?_, ?_, .inl ⟨?_, ?_⟩⟩
    · rw [step_eq, step_eq, run]
    · unfold entries tell instructed instruct popsStatus
      simp only [same, regs, pending]
    · rw [step_eq, step_eq, run]
    · rw [step_eq, step_eq, run]
  · have fails := step_of_failed (m := ⟨⟨c, os, stop'⟩, b, j, l⟩) (congrArg Ending.outcome failed)
    have fails' := step_of_failed (m := ⟨⟨c', os, stop'⟩, b, j', l'⟩)
      (congrArg Ending.outcome failed')
    unfold instruct at fails fails'
    rw [failed] at fails
    rw [failed'] at fails'
    rw [fails, fails']
    refine ⟨rfl, ?_, .inr ⟨⟨left, rfl, rfl, rfl⟩, e, rfl⟩⟩
    unfold entries instruct
    rw [failed, failed']

theorem Alike.resume (h : Alike m m') (fuel : Nat) :
    (m'.resume fuel).verdict? = (m.resume fuel).verdict? ∧
      Alike (m.resume fuel).machine (m'.resume fuel).machine ∧
      m'.entriesFrom fuel = m.entriesFrom fuel := by
  cases fuel with
  | zero =>
    rw [Machine.resume, Machine.resume, h.stop]
    split
    · exact ⟨rfl, h.log _ _, rfl⟩
    · exact ⟨rfl, h, rfl⟩
  | succ fuel =>
    have regs : m'.cpu.regs = m.cpu.regs := (congrArg Cpu.regs h.cpu :)
    obtain ⟨outcome, entries, rest⟩ := h.step
    rw [Machine.resume, Machine.resume, entriesFrom, entriesFrom, h.stop, entries]
    unfold guardedStep
    generalize m.step = s at outcome rest ⊢
    generalize m'.step = s' at outcome rest ⊢
    obtain ⟨r, m₁⟩ := s
    obtain ⟨r', m₁'⟩ := s'
    obtain rfl : r' = r := outcome
    split
    · exact ⟨rfl, h.log _ _, rfl⟩
    · rcases r' with (f | e) | _
      · have same : Same m₁ m₁' := rest.resolve_right (by simp)
        refine ⟨?_, same.alike.log _ _, rfl⟩
        show some (Except.error (ExecError.internalFault m₁'.cpu.fetched m'.cpu.regs.pc _)) = _
        rw [same.engine, regs]
        rfl
      · have alike : Alike m₁ m₁' := rest.elim Same.alike And.left
        exact ⟨rfl, alike.log _ _, rfl⟩
      -- from here on nothing but the record differs
      · have same : Same m₁ m₁' := rest.resolve_right (by simp)
        obtain ⟨verdict, left⟩ := simulation_same.resume same fuel
        exact ⟨verdict, left.alike, congrArg (m.entries ++ ·) (same.entriesFrom fuel)⟩

theorem start_eq (m : Machine Memory ω) : ∃ m₀, m.start = (.ok (), m₀) ∧
    m₀.toEngine =
      { cpu := { m.cpu with
          regs := Cpu.restarted (m.bus.readWord 0xFFFC) m.cpu.regs
          pending := none
          holdPc := false }
        observers := m.observers } ∧
    m₀.bus = m.bus ∧ ∀ fuel, (Call.start fuel).entries m =
      m.cpu.pending.toList.map .overwritten ++ .restarted :: m₀.entriesFrom fuel := by
  have performed := performCpu_eq Cpu.reset m
  rw [Cpu.reset_on_memory] at performed
  have started : m.start = (.ok (), (m.performCpu Cpu.reset).2.begin) := by
    rw [start, performed]
  refine ⟨_, started, ?_, ?_, fun fuel => ?_⟩
  · rw [(same_begin _).engine, performed]
  · rw [(same_begin _).bus, performed]
  · simp only [Call.entries, started, Cpu.resetEntries, Cpu.reset_on_memory, List.append_assoc]
    rfl

/-- `m` and `m'` hold the same in all that outlasts a restart. The program counter, the interrupt-disable
flag, the latch, the stop, the hold and the traces of the last instruction may be left over from
anything. -/
structure AgreeOnKept (m m' : Machine Memory ω) : Prop where
  regs : ∀ reg, m'.cpu.regs.get reg = m.cpu.regs.get reg
  flags : ∀ flag, flag ≠ .interruptDisable →
    m'.cpu.regs.flags.get flag = m.cpu.regs.flags.get flag
  executed : m'.cpu.executed = m.cpu.executed
  observers : m'.observers = m.observers
  bus : m'.bus = m.bus

/-- What a restart does not keep has no part in the run: it begins at the word at `0xFFFC` with interrupts
disabled and nothing pushed, latched, held or stopped, completes the same instructions, ends with the
same verdict and leaves the same behind, but for the traces of the last instruction. What was latched
is overwritten, and each request that leaves the latch later was accepted in the run. -/
theorem start_forgets (h : AgreeOnKept m m') : ∃ m₀ m₀',
    m.start = (.ok (), m₀) ∧ m'.start = (.ok (), m₀') ∧
    m₀.cpu.regs = Cpu.restarted (m.bus.readWord 0xFFFC) m.cpu.regs ∧ m₀.bus = m.bus ∧
    m₀.cpu.pending = none ∧ m₀.cpu.holdPc = false ∧ m₀.stop = false ∧
    ∀ fuel,
      (m₀'.resume fuel).verdict? = (m₀.resume fuel).verdict? ∧
      Alike (m₀.resume fuel).machine (m₀'.resume fuel).machine ∧
      ∃ es,
        (Call.start fuel).entries m =
          m.cpu.pending.toList.map .overwritten ++ .restarted :: es ∧
        (Call.start fuel).entries m' =
          m'.cpu.pending.toList.map .overwritten ++ .restarted :: es ∧
        accepted es = released es ++ (m₀.resume fuel).machine.cpu.pending.toList := by
  obtain ⟨m₀, started, engine, bus, record⟩ := start_eq m
  obtain ⟨m₀', started', engine', bus', record'⟩ := start_eq m'
  -- the vector and what a restart keeps make the two machines the same but for traces
  have alike : Alike m₀ m₀' := by
    refine ⟨?_, ?_, ?_, ?_⟩
    · rw [engine, engine', h.bus, Cpu.restarted_eq h.regs h.flags]
      simp only [Cpu.untraced, h.executed]
    · rw [engine, engine', h.observers]
    · rw [engine, engine']
    · rw [bus, bus', h.bus]
  have empty : m₀.cpu.pending = none := by rw [engine]
  refine ⟨m₀, m₀', started, started', ?_, bus, empty, ?_, ?_, fun fuel => ?_⟩
  · rw [engine]
  · rw [engine]
  · rw [engine]
  · obtain ⟨verdict, left, entries⟩ := alike.resume fuel
    refine ⟨verdict, left, m₀.entriesFrom fuel, record fuel, ?_, ?_⟩
    · rw [record' fuel, entries]
    · have balanced := (m₀.moves_of_resume fuel).balanced
      rw [empty] at balanced
      exact balanced

/-- `INX` and `DEX`, reached by a reset, with a limit of two instructions. -/
def orderly : Machine Memory Limit where
  bus := (Memory.zero.store 0x8000 [0xE8, 0xCA]).writeWord 0xFFFC 0x8000
  observers := [{ limit := 2 }]

def disorderly : Machine Memory Limit :=
  { orderly with
    cpu :=
      { regs := { pc := 0x1234, flags := { interruptDisable := true } }
        pending := some .irq
        holdPc := true
        current := some ⟨0x20, .JSR, .absolute⟩
        fetched := 0xFF }
    stop := true }

theorem disorderly_restarts : ∃ m₀ m₀', orderly.start = (.ok (), m₀) ∧
    disorderly.start = (.ok (), m₀') ∧ (m₀'.resume 2).verdict? = some (.ok ()) ∧
    Alike (m₀.resume 2).machine (m₀'.resume 2).machine ∧
    (Call.start 2).entries disorderly =
      [.overwritten .irq, .restarted, .completed ⟨0xE8, .INX, .implicit⟩,
        .completed ⟨0xCA, .DEX, .implicit⟩] := by
  have kept : AgreeOnKept orderly disorderly := by
    refine ⟨?_, ?_, rfl, rfl, rfl⟩
    · intro reg
      cases reg <;> rfl
    · intro flag other
      cases flag with
      | interruptDisable => exact absurd rfl other
      | _ => rfl
  obtain ⟨m₀, m₀', started, started', -, -, -, -, -, runs⟩ := start_forgets kept
  obtain ⟨verdict, alike, -⟩ := runs 2
  refine ⟨m₀, m₀', started, started', ?_, alike, rfl⟩
  obtain rfl : orderly.start.2 = m₀ := congrArg Prod.snd started
  exact verdict

end Memory

end Machine

end Mos6502
