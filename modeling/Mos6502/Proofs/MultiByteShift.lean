import Mos6502.Proofs.MultiByte
import Mos6502.Proofs.ReadModifyWrite

namespace Mos6502

theorem Mnemonic.registerForm_of_shifts {mnemonic : Mnemonic} (h : mnemonic ∈ shifts) :
    mnemonic.registerForm = some (mnemonic, .a) := by
  have table : ∀ m ∈ shifts, m.registerForm = some (m, .a) := by decide
  exact table mnemonic h

/-- The number in the cells `as`, low byte first. -/
def number (cell : Addr → Byte) (as : List Addr) : Nat := value (as.map cell)

section Numbers

variable (cell : Addr → Byte) (a : Addr) (as : List Addr)

theorem number_cons : number cell (a :: as) = (cell a).toNat + 256 * number cell as := rfl

theorem number_concat :
    number cell (as ++ [a]) = number cell as + 256 ^ as.length * (cell a).toNat := by
  unfold number value
  rw [List.map_append, List.map_append, Nat.ofDigits_append, List.length_map, List.length_map]
  rfl

variable {cell as}

theorem number_congr {cell' : Addr → Byte} (h : ∀ a ∈ as, cell' a = cell a) :
    number cell' as = number cell as := congrArg value (List.map_congr_left h)

theorem number_inj {cell' : Addr → Byte} (h : number cell' as = number cell as) :
    ∀ a ∈ as, cell' a = cell a := by
  have small (bs : List Byte) : ∀ d ∈ bs.map UInt8.toNat, d < 256 := by
    intro d member
    obtain ⟨b, -, rfl⟩ := List.mem_map.1 member
    exact b.toNat_lt
  have digits : (as.map cell').map UInt8.toNat = (as.map cell).map UInt8.toNat := by
    apply Nat.ofDigits_inj_of_len_eq (by decide : 1 < 256) _ (small _) (small _) h
    simp
  have bytes : as.map cell' = as.map cell :=
    List.map_injective_iff.2 (fun _ _ => UInt8.toNat_inj.1) digits
  exact List.map_inj_left.1 bytes

end Numbers

namespace Cpu

variable {β : Type} [Bus β] {cell : β → Addr → Byte} {c : Cpu} {b : β}

theorem settle_unserviced (hc : Bus.Holds cell) (h : (settle.on c b).outcome = .ok ())
    (hn : ∀ kind, .serviced kind ∉ c.settleEntries b) : cell (settle.on c b).bus = cell b := by
  obtain ⟨line, b', ns, polled, run⟩ := settle_of_ok c h
  rw [run, Ending.outcome_after] at h
  rw [run, Ending.bus_after]
  obtain ⟨es, servicing, answered, record⟩ := servicing_of_ok h
  rw [hc.answered answered, ← hc.poll polled]
  rw [settleEntries_of_poll polled, record] at hn
  generalize (service.on (c.latch (c.latched line)) b').state = c' at servicing
  cases servicing with
  | idle | masked => rfl
  | @entered kind _ _ lo hi =>
    refine absurd (List.mem_append_right _ ?_) (hn kind)
    rw [notes_append, notes_map_access]
    exact List.mem_singleton_self _

end Cpu

namespace Machine

variable {β ω : Type} [Bus β] [Observer ω] {cell : β → Addr → Byte} {m m' : Machine β ω}

theorem cells_of_step (hc : Bus.Holds cell) (h : m.step = (.ok (), m'))
    (hn : ∀ kind, .serviced kind ∉ m.entries) :
    (∃ b, Serves m.bus m.instructionAccesses b) ∧
      cell m'.bus = stored (cell m.bus) m.instructionAccesses := by
  obtain ⟨view, hi, ht, hs, -, hb⟩ := step_eq_ok h
  obtain ⟨course, answered⟩ := m.cpu.instruction_ensures.on_ok hi
  have served : Serves m.bus m.instructionAccesses m.instruct.bus := answered.serves course.unpolled
  have told : cell (m.tell view).bus = cell m.instruct.bus := by
    rw [hc.served (serves_told ht), (m.writesNothing_told view).stored]
  have unserviced : ∀ kind, .serviced kind ∉ m.instruct.state.settleEntries (m.tell view).bus := by
    intro kind member
    apply hn kind
    rw [entries_of_ok hi ht]
    exact List.mem_append_right _ member
  refine ⟨⟨_, served⟩, ?_⟩
  rw [hb, Cpu.settle_unserviced hc hs unserviced, told, hc.served served]

/-- The instruction at the program counter has the given mnemonic, in a mode that gives it the address
`addr`, and reads and writes the cell there. -/
def Modifies (m : Machine β ω) (mnemonic : Mnemonic) (addr : Addr) : Prop :=
  ∃ opcode mode lookup v w, Instruction.decode opcode = some ⟨opcode, mnemonic, mode⟩ ∧
    mode.Lookup m.cpu.regs lookup (some addr) ∧
    m.instructionAccesses = ⟨.read, m.cpu.regs.pc, opcode⟩ ::
      (lookup ++ [⟨.read, addr, v⟩, ⟨.write, addr, w⟩])

structure Modifying (mnemonic : Mnemonic) (addr : Addr) (m m' : Machine β ω) : Prop where
  modifies : m.Modifies mnemonic addr
  step : m.step = (.ok (), m')
  unserviced : ∀ kind, .serviced kind ∉ m.entries

theorem Ready.modifying {m : Machine Memory ω} {i : Instruction} (h : m.Ready i)
    (ho : ∀ o ∈ m.observers, Observer.NeverFaults o) (hs : i.mnemonic ∈ Mnemonic.shifts)
    {addr : Addr} (ht : i.mode.effective m.bus m.cpu.regs = some addr) :
    Modifying i.mnemonic addr m m.step.2 := by
  obtain ⟨f, inMemory, -, -⟩ := Mnemonic.forms_agree (Mnemonic.registerForm_of_shifts hs)
  have notAccumulator : i.mode ≠ .accumulator := by
    intro accumulator
    rw [accumulator] at ht
    cases ht
  obtain ⟨carried, notBrk⟩ := Operation.carried (g := Operation.inMemory) rfl rfl inMemory
  obtain ⟨-, -, -, -, -, -, completes⟩ := h.step carried notBrk
  have step : m.step = (.ok (), m.step.2) := Prod.ext (completes ho) rfl
  refine ⟨?_, step, fun kind => by simp [h.entries notBrk step]⟩
  obtain ⟨view, hi, -⟩ := step_eq_ok step
  obtain ⟨course, answered⟩ := m.cpu.instruction_ensures.on_ok hi
  -- its accesses are those of the course that it takes
  unfold Modifies instructionAccesses
  generalize Cpu.instruction.events m.cpu m.bus = es at course answered ⊢
  generalize (Cpu.instruction.on m.cpu m.bus).state = c at course
  cases course with
  | @completed opcode j hd as target hl es c' performs =>
    obtain ⟨rfl, rest⟩ := (Memory.answers_read ..).1 answered
    obtain rfl := Option.some.inj (h.decoded.symm.trans hd)
    obtain ⟨rfl, -⟩ := hl.effective rest
    obtain ⟨addr', v, found, rfl, -⟩ := performs.in_memory notAccumulator inMemory
    obtain rfl := Option.some.inj (ht.symm.trans found)
    have opcode := Instruction.opcode_of_decode hd
    rw [ht] at hl
    refine ⟨_, i.mode, as, v, (f v m.cpu.regs.flags.carry).1, hd.trans ?_, hl, ?_⟩
    · rw [← opcode]
    · simp only [accesses_access, accesses_append, accesses_map_access, accesses_note,
        accesses_nil, List.append_nil]
      rfl

/-- What may come between two shifts of a number in the cells `as`: instructions that neither can change
the carry nor write to these cells, with nothing serviced, and what the host does, if it leaves both
alone. -/
inductive Pause (cell : β → Addr → Byte) (as : List Addr) : Machine β ω → Machine β ω → Prop
  | refl (m : Machine β ω) : Pause cell as m m
  | step {m m' m'' : Machine β ω} (hs : m.step = (.ok (), m'))
      (hn : ∀ kind, .serviced kind ∉ m.entries)
      (hw : ∀ i, .completed i ∈ m.entries → i.mnemonic ∉ Flag.carry.writers)
      (ha : ∀ a ∈ m.instructionAccesses, a.kind = .write → a.addr ∉ as)
      (rest : Pause cell as m' m'') : Pause cell as m m''
  | host {m m' m'' : Machine β ω} (hc : m'.cpu.regs.flags.carry = m.cpu.regs.flags.carry)
      (ha : ∀ a ∈ as, cell m'.bus a = cell m.bus a) (rest : Pause cell as m' m'') :
      Pause cell as m m''

/-- Steps that modify the cells listed, each with its mnemonic, and leave the cells `as` alone in
between. -/
inductive Pass (cell : β → Addr → Byte) (as : List Addr) :
    List (Mnemonic × Addr) → Machine β ω → Machine β ω → Prop
  | nil (m : Machine β ω) : Pass cell as [] m m
  | cons {mnemonic : Mnemonic} {addr : Addr} {shifts : List (Mnemonic × Addr)}
      {m m₁ m₂ m' : Machine β ω} (h : Modifying mnemonic addr m m₁)
      (between : Pause cell as m₁ m₂) (rest : Pass cell as shifts m₂ m') :
      Pass cell as ((mnemonic, addr) :: shifts) m m'

theorem Modifying.cells (hc : Bus.Holds cell) {mnemonic : Mnemonic} {addr : Addr}
    (h : Modifying mnemonic addr m m') : ∃ opcode mode lookup w,
      Instruction.decode opcode = some ⟨opcode, mnemonic, mode⟩ ∧ mode ≠ .accumulator ∧
      m.instructionAccesses = ⟨.read, m.cpu.regs.pc, opcode⟩ ::
        (lookup ++ [⟨.read, addr, cell m.bus addr⟩, ⟨.write, addr, w⟩]) ∧
      ∀ a, cell m'.bus a = if a = addr then w else cell m.bus a := by
  obtain ⟨opcode, mode, lookup, v, w, hd, hl, made⟩ := h.modifies
  obtain ⟨⟨b, served⟩, changed⟩ := cells_of_step hc h.step h.unserviced
  have inMemory : mode ≠ .accumulator := by
    intro accumulator
    cases hl.target_of_accumulator accumulator
  have reads : WritesNothing (⟨.read, m.cpu.regs.pc, opcode⟩ :: lookup) := by
    have only := hl.onlyReads.writesNothing
    rw [accesses_map_access] at only
    exact (writesNothing_read ..).2 only
  rw [made, ← List.cons_append] at served changed
  obtain rfl : v = cell m.bus addr := by
    rw [hc.read_served _ served, reads.stored]
  rw [stored_append, reads.stored] at changed
  refine ⟨opcode, mode, lookup, w, hd, inMemory, made, fun a => ?_⟩
  rw [changed]
  rfl

theorem Modifying.makes (hc : Bus.Holds cell) {mnemonic : Mnemonic} {addr : Addr}
    (h : Modifying mnemonic addr m m') (hs : mnemonic ∈ Mnemonic.shifts) :
    mnemonic.Makes (cell m.bus addr) m.cpu.regs.flags.carry (cell m'.bus addr)
      m'.cpu.regs.flags.carry := by
  obtain ⟨opcode, mode, lookup, w, hd, hm, made, changed⟩ := h.cells hc
  obtain ⟨f, inMemory, -, makes⟩ := Mnemonic.forms_agree (Mnemonic.registerForm_of_shifts hs)
  obtain ⟨c, view, es, course, accessed, -, settled⟩ := step_parts h.step
  have kept : m'.cpu.regs = c.regs := by
    rcases settled with kept | ⟨kind, target, serviced, -⟩
    · exact kept
    · exact absurd serviced (h.unserviced kind)
  -- the course makes the accesses that are named, so that it modifies the same cell
  rw [made] at accessed
  cases course with
  | @completed opcode' i hd' as target hl' work c₁ performs =>
    simp only [accesses_access, accesses_append, accesses_map_access, accesses_note,
      accesses_nil, List.append_nil] at accessed
    obtain ⟨same, rest⟩ := List.cons.inj accessed
    obtain rfl : opcode' = opcode := congrArg Access.value same
    obtain rfl := Option.some.inj (hd'.symm.trans hd)
    obtain ⟨addr', v, -, rfl, rfl⟩ := performs.in_memory hm inMemory
    have last := List.append_inj_right' rest rfl
    simp only [accesses_access, accesses_nil, List.cons.injEq, Access.mk.injEq, true_and,
      and_true] at last
    obtain ⟨⟨rfl, rfl⟩, -, rfl⟩ := last
    rw [kept, Cpu.flags_complete, changed, if_pos rfl]
    exact makes _ _

theorem Pause.carry {as : List Addr} (h : Pause cell as m m') :
    m'.cpu.regs.flags.carry = m.cpu.regs.flags.carry := by
  have interlude : Interlude m m' := by
    induction h with
    | refl m => exact .refl m
    | step hs _ hw _ _ ih => exact .step hs hw ih
    | host hc _ _ ih => exact .host hc ih
  exact interlude.carry

theorem Pause.cells (hc : Bus.Holds cell) {as : List Addr} (h : Pause cell as m m') :
    ∀ a ∈ as, cell m'.bus a = cell m.bus a := by
  induction h with
  | refl => exact fun _ _ => rfl
  | step hs hn _ ha _ ih =>
    intro a member
    rw [ih a member, (cells_of_step hc hs hn).2]
    apply stored_of_not_written
    rintro access made writes rfl
    exact ha access made writes member
  | host _ ha _ ih =>
    intro a member
    exact (ih a member).trans (ha a member)

theorem Pass.keeps (hc : Bus.Holds cell) {as : List Addr} {shifts : List (Mnemonic × Addr)}
    (run : Pass cell as shifts m m') {a : Addr} (ha : a ∈ as) (fresh : a ∉ shifts.map Prod.snd) :
    cell m'.bus a = cell m.bus a := by
  induction run with
  | nil => rfl
  | @cons mnemonic addr shifts _ _ _ _ h between _ ih =>
    obtain ⟨other, later⟩ := not_or.1 (mt List.mem_cons.2 fresh)
    obtain ⟨_, _, _, _, -, -, -, changed⟩ := h.cells hc
    rw [ih later, between.cells hc a ha, changed, if_neg other]

theorem Pass.first (hc : Bus.Holds cell) {as : List Addr} {shifts : List (Mnemonic × Addr)}
    {mnemonic : Mnemonic} {a : Addr} (run : Pass cell as ((mnemonic, a) :: shifts) m m')
    (hs : mnemonic ∈ Mnemonic.shifts) (ha : a ∈ as) (fresh : a ∉ shifts.map Prod.snd) :
    ∃ m₂ : Machine β ω, Pass cell as shifts m₂ m' ∧
      mnemonic.Makes (cell m.bus a) m.cpu.regs.flags.carry (cell m'.bus a)
        m₂.cpu.regs.flags.carry ∧
      ∀ b ∈ as, b ≠ a → cell m₂.bus b = cell m.bus b := by
  cases run with
  | @cons _ _ _ _ m₁ m₂ _ h between rest =>
    refine ⟨m₂, rest, ?_, fun b hb apart => ?_⟩
    · rw [rest.keeps hc ha fresh, between.cells hc a ha, between.carry]
      exact h.makes hc hs
    · obtain ⟨_, _, _, _, -, -, -, changed⟩ := h.cells hc
      rw [between.cells hc b hb, changed, if_neg apart]

end Machine

namespace Mnemonic

/-- What a shift takes in from the carry `c`. -/
def carriedIn (mnemonic : Mnemonic) (c : Bool) : Nat :=
  if mnemonic = .ROL ∨ mnemonic = .ROR then c.toNat else 0

/-- The cells `as` in their order, the first of them with the mnemonic `first`. -/
def along (first others : Mnemonic) : List Addr → List (Mnemonic × Addr)
  | [] => []
  | a :: as => (first, a) :: as.map fun b => (others, b)

variable {first : Mnemonic} {v w : Byte} {c c' : Bool}

theorem along_self (as : List Addr) : first.along first as = as.map fun b => (first, b) := by
  cases as <;> rfl

theorem Makes.left (hf : first = .ASL ∨ first = .ROL) (h : first.Makes v c w c') :
    w.toNat + 256 * c'.toNat = 2 * v.toNat + first.carriedIn c := by
  rcases hf with rfl | rfl <;> exact h

theorem Makes.right (hf : first = .LSR ∨ first = .ROR) (h : first.Makes v c w c') :
    2 * w.toNat + c'.toNat = v.toNat + 256 * first.carriedIn c := by
  rcases hf with rfl | rfl <;> exact h

end Mnemonic

namespace Machine

variable {β ω : Type} [Bus β] [Observer ω] {cell : β → Addr → Byte} {m m' : Machine β ω}
  {first others : Mnemonic} {a : Addr} {as all : List Addr}

theorem Pass.column (hc : Bus.Holds cell) (hs : first ∈ Mnemonic.shifts)
    (inside : ∀ b ∈ a :: as, b ∈ all) (distinct : (a :: as).Nodup)
    (run : Pass cell all (first.along others (a :: as)) m m') : ∃ m₂ : Machine β ω,
      Pass cell all (others.along others as) m₂ m' ∧
      first.Makes (cell m.bus a) m.cpu.regs.flags.carry (cell m'.bus a)
        m₂.cpu.regs.flags.carry ∧
      ∀ b ∈ as, cell m₂.bus b = cell m.bus b := by
  have apart : a ∉ as := (List.nodup_cons.1 distinct).1
  have fresh : a ∉ (as.map fun b => (others, b)).map Prod.snd := by
    rw [List.map_map]
    exact mt (fun member => List.map_id as ▸ member) apart
  obtain ⟨m₂, rest, makes, kept⟩ := Pass.first hc run hs (inside a List.mem_cons_self) fresh
  rw [← Mnemonic.along_self] at rest
  refine ⟨m₂, rest, makes, fun b hb => ?_⟩
  apply kept b (inside b (List.mem_cons_of_mem a hb))
  rintro rfl
  exact apart hb

theorem Pass.left (hc : Bus.Holds cell) (hf : first = .ASL ∨ first = .ROL)
    (inside : ∀ b ∈ a :: as, b ∈ all) (distinct : (a :: as).Nodup)
    (run : Pass cell all (first.along .ROL (a :: as)) m m') :
    number (cell m'.bus) (a :: as) + 256 ^ (a :: as).length * m'.cpu.regs.flags.carry.toNat =
      2 * number (cell m.bus) (a :: as) + first.carriedIn m.cpu.regs.flags.carry := by
  have shift : first ∈ Mnemonic.shifts := by rcases hf with rfl | rfl <;> decide
  -- from the lowest cell up, each taking in the carry of the one before
  induction as generalizing a m first with
  | nil =>
    obtain ⟨m₂, rest, makes, -⟩ := Pass.column hc shift inside distinct run
    cases rest
    have column := makes.left hf
    simpa [number, value_singleton] using column
  | cons b bs ih =>
    obtain ⟨m₂, rest, makes, same⟩ := Pass.column hc shift inside distinct run
    have column := makes.left hf
    have above := ih (.inr rfl) (fun d hd => inside d (List.mem_cons_of_mem a hd))
      (List.nodup_cons.1 distinct).2 rest (by decide)
    rw [number_congr same] at above
    have taken : Mnemonic.ROL.carriedIn m₂.cpu.regs.flags.carry =
      m₂.cpu.regs.flags.carry.toNat := rfl
    have scaled : 256 ^ (a :: b :: bs).length * m'.cpu.regs.flags.carry.toNat =
        256 * (256 ^ (b :: bs).length * m'.cpu.regs.flags.carry.toNat) := by
      rw [List.length_cons]
      ring
    rw [number_cons _ a, number_cons _ a, scaled]
    omega

theorem Pass.right (hc : Bus.Holds cell) (hf : first = .LSR ∨ first = .ROR)
    (inside : ∀ b ∈ a :: as, b ∈ all) (distinct : (a :: as).Nodup)
    (run : Pass cell all (first.along .ROR (a :: as)) m m') :
    2 * number (cell m'.bus) (a :: as).reverse + m'.cpu.regs.flags.carry.toNat =
      number (cell m.bus) (a :: as).reverse +
        256 ^ (a :: as).length * first.carriedIn m.cpu.regs.flags.carry := by
  have shift : first ∈ Mnemonic.shifts := by rcases hf with rfl | rfl <;> decide
  -- from the highest cell down
  induction as generalizing a m first with
  | nil =>
    obtain ⟨m₂, rest, makes, -⟩ := Pass.column hc shift inside distinct run
    cases rest
    have column := makes.right hf
    simpa [number, value_singleton] using column
  | cons b bs ih =>
    obtain ⟨m₂, rest, makes, same⟩ := Pass.column hc shift inside distinct run
    have column := makes.right hf
    have below := ih (.inr rfl) (fun d hd => inside d (List.mem_cons_of_mem a hd))
      (List.nodup_cons.1 distinct).2 rest (by decide)
    rw [number_congr fun d hd => same d (List.mem_reverse.1 hd)] at below
    have taken : Mnemonic.ROR.carriedIn m₂.cpu.regs.flags.carry =
      m₂.cpu.regs.flags.carry.toNat := rfl
    rw [taken] at below
    rw [List.reverse_cons (a := a), number_concat, number_concat, List.length_reverse,
      List.length_cons (a := a), pow_succ]
    zify at below column ⊢
    linear_combination below + 256 ^ (b :: bs).length * column

/-- A number in the cells `as`, low byte first, that is shifted byte by byte: to the left, with the lowest
cell first, it is doubled, and to the right, with the highest cell first, it is halved, the last carry
being the bit that falls out. With rotates alone the first carry comes in, and rotating back restores
every cell and the carry. -/
theorem shifts_exact (hc : Bus.Holds cell) (distinct : as.Nodup) (filled : as ≠ []) :
    let V := number (cell m.bus) as
    let W := number (cell m'.bus) as
    let c := m.cpu.regs.flags.carry
    let c' := m'.cpu.regs.flags.carry
    (Pass cell as (Mnemonic.ASL.along .ROL as) m m' → W + 256 ^ as.length * c'.toNat = 2 * V) ∧
    (Pass cell as (Mnemonic.LSR.along .ROR as.reverse) m m' → 2 * W + c'.toNat = V) ∧
    (Pass cell as (Mnemonic.ROL.along .ROL as) m m' →
      W + 256 ^ as.length * c'.toNat = 2 * V + c.toNat ∧
      ∀ m'' : Machine β ω, Pass cell as (Mnemonic.ROR.along .ROR as.reverse) m' m'' →
        (∀ a ∈ as, cell m''.bus a = cell m.bus a) ∧ m''.cpu.regs.flags.carry = c) := by
  intro V W c c'
  have left {first : Mnemonic} (hf : first = .ASL ∨ first = .ROL)
      (run : Pass cell as (first.along .ROL as) m m') :
      W + 256 ^ as.length * c'.toNat = 2 * V + first.carriedIn c := by
    obtain ⟨a, as', rfl⟩ := List.exists_cons_of_ne_nil filled
    exact run.left hc hf (fun _ => id) distinct
  have right {first : Mnemonic} (hf : first = .LSR ∨ first = .ROR) {m m' : Machine β ω}
      (run : Pass cell as (first.along .ROR as.reverse) m m') :
      2 * number (cell m'.bus) as + m'.cpu.regs.flags.carry.toNat =
        number (cell m.bus) as +
          256 ^ as.length * first.carriedIn m.cpu.regs.flags.carry := by
    obtain ⟨a, as', downwards⟩ := List.exists_cons_of_ne_nil (mt List.reverse_eq_nil_iff.1 filled)
    have inside : ∀ b ∈ a :: as', b ∈ as := fun b hb => List.mem_reverse.1 (downwards ▸ hb)
    rw [downwards] at run
    have apart : (a :: as').Nodup := downwards ▸ (List.reverse_perm as).nodup_iff.2 distinct
    have halved := run.right hc hf inside apart
    rwa [← downwards, List.reverse_reverse, List.length_reverse] at halved
  refine ⟨left (.inl rfl), right (.inl rfl), fun rotated => ⟨left (.inr rfl) rotated, ?_⟩⟩
  intro m'' back
  have doubled : W + 256 ^ as.length * c'.toNat = 2 * V + c.toNat := left (.inr rfl) rotated
  have halved : 2 * number (cell m''.bus) as + m''.cpu.regs.flags.carry.toNat =
      W + 256 ^ as.length * c'.toNat := right (.inr rfl) back
  -- the two equations leave the carry and the number no choice
  have restored := halved.trans doubled
  have old := c.toNat_le
  have new := m''.cpu.regs.flags.carry.toNat_le
  have same : number (cell m''.bus) as = V := by omega
  have carry : m''.cpu.regs.flags.carry.toNat = c.toNat := by omega
  exact ⟨number_inj same, bit_inj carry⟩

/-- `0x80C1` in the cells `0x0010` and `0x0080`, the carry set, and a program. -/
def holding (code : List Byte) : Machine Memory Empty where
  cpu := { regs := { pc := 0x8000, flags := { carry := true } } }
  bus := ((Memory.zero.store 0x8000 code).write 0x0010 0xC1).write 0x0080 0x80

/-- `ASL $10`, `TAX`, `ROL $80`. -/
def doubling : Machine Memory Empty := holding [0x06, 0x10, 0xAA, 0x26, 0x80]

def halving : Machine Memory Empty := holding [0x46, 0x80, 0x66, 0x10]

def circling : Machine Memory Empty := holding [0x26, 0x10, 0x26, 0x80, 0x66, 0x80, 0x66, 0x10]

theorem holding_shifts :
    number (doubling.after 3).bus.read [0x0010, 0x0080] + 65536 = 2 * 0x80C1 ∧
    2 * number (halving.after 2).bus.read [0x0010, 0x0080] + 1 = 0x80C1 ∧
    number (circling.after 2).bus.read [0x0010, 0x0080] + 65536 = 2 * 0x80C1 + 1 ∧
    (circling.after 4).bus.read 0x0010 = 0xC1 ∧ (circling.after 4).bus.read 0x0080 = 0x80 := by
  have step {m : Machine Memory Empty} (i : Instruction) {addr : Addr} (ready : m.Ready i)
      (hs : i.mnemonic ∈ Mnemonic.shifts) (ht : i.mode.effective m.bus m.cpu.regs = some addr) :
      Modifying i.mnemonic addr m m.step.2 := ready.modifying (fun o => o.elim) hs ht
  have pause : Pause Memory.read [0x0010, 0x0080] (doubling.after 1) (doubling.after 2) := by
    have entries : (doubling.after 1).entries = [.completed ⟨0xAA, .TAX, .implicit⟩] := rfl
    have accesses : (doubling.after 1).instructionAccesses = [⟨.read, 0x8002, 0xAA⟩] := rfl
    refine .step rfl (by simp [entries]) (fun i member => ?_) (by simp [accesses]) (.refl _)
    rw [entries] at member
    obtain rfl := Entry.completed.inj (List.mem_singleton.1 member)
    decide
  have doubled : Pass Memory.read [0x0010, 0x0080] (Mnemonic.ASL.along .ROL [0x0010, 0x0080])
      doubling (doubling.after 3) := by
    have low : Modifying .ASL 0x0010 doubling (doubling.after 1) :=
      step ⟨0x06, .ASL, .zeroPage⟩ ⟨rfl, rfl⟩ (by decide) rfl
    have high : Modifying .ROL 0x0080 (doubling.after 2) (doubling.after 3) :=
      step ⟨0x26, .ROL, .zeroPage⟩ ⟨rfl, rfl⟩ (by decide) rfl
    exact .cons low pause (.cons high (.refl _) (.nil _))
  have halved : Pass Memory.read [0x0010, 0x0080] (Mnemonic.LSR.along .ROR [0x0080, 0x0010])
      halving (halving.after 2) := by
    have high : Modifying .LSR 0x0080 halving (halving.after 1) :=
      step ⟨0x46, .LSR, .zeroPage⟩ ⟨rfl, rfl⟩ (by decide) rfl
    have low : Modifying .ROR 0x0010 (halving.after 1) (halving.after 2) :=
      step ⟨0x66, .ROR, .zeroPage⟩ ⟨rfl, rfl⟩ (by decide) rfl
    exact .cons high (.refl _) (.cons low (.refl _) (.nil _))
  have rotated : Pass Memory.read [0x0010, 0x0080] (Mnemonic.ROL.along .ROL [0x0010, 0x0080])
      circling (circling.after 2) := by
    have low : Modifying .ROL 0x0010 circling (circling.after 1) :=
      step ⟨0x26, .ROL, .zeroPage⟩ ⟨rfl, rfl⟩ (by decide) rfl
    have high : Modifying .ROL 0x0080 (circling.after 1) (circling.after 2) :=
      step ⟨0x26, .ROL, .zeroPage⟩ ⟨rfl, rfl⟩ (by decide) rfl
    exact .cons low (.refl _) (.cons high (.refl _) (.nil _))
  have back : Pass Memory.read [0x0010, 0x0080] (Mnemonic.ROR.along .ROR [0x0080, 0x0010])
      (circling.after 2) (circling.after 4) := by
    have high : Modifying .ROR 0x0080 (circling.after 2) (circling.after 3) :=
      step ⟨0x66, .ROR, .zeroPage⟩ ⟨rfl, rfl⟩ (by decide) rfl
    have low : Modifying .ROR 0x0010 (circling.after 3) (circling.after 4) :=
      step ⟨0x66, .ROR, .zeroPage⟩ ⟨rfl, rfl⟩ (by decide) rfl
    exact .cons high (.refl _) (.cons low (.refl _) (.nil _))
  have distinct : ([0x0010, 0x0080] : List Addr).Nodup := by decide
  have filled : ([0x0010, 0x0080] : List Addr) ≠ [] := by decide
  obtain ⟨whole, restored⟩ := (shifts_exact Memory.holds distinct filled).2.2 rotated
  obtain ⟨cells, -⟩ := restored _ back
  refine ⟨(shifts_exact Memory.holds distinct filled).1 doubled,
    (shifts_exact Memory.holds distinct filled).2.1 halved, whole, ?_, ?_⟩
  · exact cells 0x0010 (by decide)
  · exact cells 0x0080 (by decide)

end Machine

end Mos6502
