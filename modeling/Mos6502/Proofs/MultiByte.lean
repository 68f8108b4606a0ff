import Mathlib.Data.Nat.Digits.Defs
import Mathlib.Tactic.LinearCombination
import Mathlib.Tactic.Zify
import Mos6502.Proofs.OperandArithmetic

namespace Mos6502

/-- The number with the bytes `bs`, low byte first. -/
def value (bs : List Byte) : Nat := Nat.ofDigits 256 (bs.map UInt8.toNat)

/-- The same number in two's complement. -/
def signedValue (bs : List Byte) : Int :=
  if 2 * value bs < 256 ^ bs.length then value bs else value bs - 256 ^ bs.length

/-- `v` can be written in two's complement with `n` bytes. -/
def Fits (n : Nat) (v : Int) : Prop := -256 ^ n ≤ 2 * v ∧ 2 * v < 256 ^ n

instance (n : Nat) (v : Int) : Decidable (Fits n v) := inferInstanceAs (Decidable (_ ∧ _))

section Bytes

variable (b : Byte) (bs : List Byte)

theorem value_cons : value (b :: bs) = b.toNat + 256 * value bs := rfl

theorem value_singleton : value [b] = b.toNat := rfl

theorem signedValue_singleton : signedValue [b] = signed b := by
  have hb := b.toNat_lt
  unfold signedValue signed
  rw [value_singleton, List.length_singleton]
  split <;> split <;> omega

theorem even_pow {n : Nat} (hn : 0 < n) : ∃ half, 256 ^ n = 2 * half := by
  obtain ⟨k, rfl⟩ := Nat.exists_eq_add_one_of_ne_zero (Nat.ne_of_gt hn)
  exact ⟨256 ^ k * 128, by rw [Nat.pow_succ]; omega⟩

theorem signedValue_cons (hbs : bs ≠ []) :
    signedValue (b :: bs) = b.toNat + 256 * signedValue bs := by
  have hb := b.toNat_lt
  obtain ⟨half, even⟩ := even_pow (List.length_pos_of_ne_nil hbs)
  have int : (256 : Int) ^ bs.length = 2 * half := by exact_mod_cast even
  unfold signedValue
  rw [value_cons, List.length_cons, Nat.pow_succ, pow_succ, int, even]
  split <;> split <;> omega

theorem fits_cons {n : Nat} (hn : 0 < n) (v : Int) : Fits (n + 1) (b.toNat + 256 * v) ↔ Fits n v := by
  have hb := b.toNat_lt
  obtain ⟨half, even⟩ := even_pow hn
  have int : (256 : Int) ^ n = 2 * half := by exact_mod_cast even
  unfold Fits
  rw [pow_succ, int]
  omega

theorem fits_one (v : Int) : Fits 1 v ↔ -128 ≤ v ∧ v ≤ 127 := by
  unfold Fits
  omega

theorem value_complement : value (bs.map (255 - ·)) + value bs + 1 = 256 ^ bs.length := by
  induction bs with
  | nil => rfl
  | cons b bs ih =>
    have hb := b.toNat_lt
    rw [List.map_cons, value_cons, value_cons, toNat_complement, List.length_cons, Nat.pow_succ]
    omega

theorem signedValue_complement (hbs : bs ≠ []) :
    signedValue (bs.map (255 - ·)) = -1 - signedValue bs := by
  induction bs with
  | nil => exact absurd rfl hbs
  | cons b bs ih =>
    have hb := b.toNat_lt
    cases bs with
    | nil =>
      rw [List.map_cons, List.map_nil, signedValue_singleton, signedValue_singleton,
        signed_complement]
    | cons b' bs =>
      have rest := ih (List.cons_ne_nil b' bs)
      rw [List.map_cons, signedValue_cons b _ (List.cons_ne_nil b' bs),
        signedValue_cons _ _ (by simp), rest, toNat_complement]
      omega

end Bytes

namespace Registers

variable (r : Registers) (m : Byte)

theorem add_sum : (r.add m).a.toNat + 256 * (r.add m).flags.carry.toNat =
    r.a.toNat + m.toNat + r.flags.carry.toNat := by
  have ha := r.a.toNat_lt
  have hm := m.toNat_lt
  have hc := r.flags.carry.toNat_le
  show (UInt8.ofNat (r.a.toNat + m.toNat + r.flags.carry.toNat)).toNat +
    256 * (decide (256 ≤ r.a.toNat + m.toNat + r.flags.carry.toNat)).toNat = _
  rw [UInt8.toNat_ofNat']
  by_cases carries : 256 ≤ r.a.toNat + m.toNat + r.flags.carry.toNat
  · rw [decide_eq_true carries, Bool.toNat_true]
    omega
  · rw [decide_eq_false carries, Bool.toNat_false]
    omega

theorem overflow_add : (r.add m).flags.overflow = true ↔
    ¬ Fits 1 (signed r.a + signed m + r.flags.carry.toNat) := by
  show decide (_ < -128 ∨ 127 < _) = true ↔ _
  rw [decide_eq_true_iff, fits_one]
  omega

end Registers

/-- What is added to the accumulator for the byte `y` that is read. -/
def Mnemonic.summand (mnemonic : Mnemonic) (y : Byte) : Byte :=
  if mnemonic = .SBC then 255 - y else y

theorem Mnemonic.effect_of_sum {mnemonic : Mnemonic} (h : mnemonic = .ADC ∨ mnemonic = .SBC) :
    mnemonic.operation.effect = some fun y r => r.add (mnemonic.summand y) := by
  rcases h with rfl | rfl <;> rfl

namespace Machine

variable {β ω : Type} [Bus β]

/-- The instruction at the program counter has the given mnemonic, in one of its modes, and the last
byte that it reads, at the address so found, is `y`. -/
def Operand (m : Machine β ω) (mnemonic : Mnemonic) (y : Byte) : Prop :=
  ∃ opcode mode lookup addr, Instruction.decode opcode = some ⟨opcode, mnemonic, mode⟩ ∧
    mode.Lookup m.cpu.regs lookup (some addr) ∧
    m.instructionAccesses = ⟨.read, m.cpu.regs.pc, opcode⟩ :: (lookup ++ [⟨.read, addr, y⟩])

variable [Observer ω]

/-- A step does to the accumulator and to the flags what its operation does with the byte it reads;
servicing an interrupt adds nothing but the disabling. -/
theorem Operand.effect {m m' : Machine β ω} {mnemonic : Mnemonic} {y : Byte}
    (h : m.Operand mnemonic y) (hs : m.step = (.ok (), m'))
    {effect : Byte → Registers → Registers} (he : mnemonic.operation.effect = some effect) :
    m'.cpu.regs.a = (effect y m.cpu.regs).a ∧
      ∀ flag, flag ≠ .interruptDisable →
        m'.cpu.regs.flags.get flag = (effect y m.cpu.regs).flags.get flag := by
  obtain ⟨opcode, mode, lookup, addr, hd, hl, reads⟩ := h
  obtain ⟨c, view, es, course, made, -, settled⟩ := step_parts hs
  -- the course makes the reads of the operand, so that the last of them is the one it works with
  have left : c.regs.a = (effect y m.cpu.regs).a ∧
      c.regs.flags = (effect y m.cpu.regs).flags := by
    rw [reads] at made
    cases course with
    | @completed opcode' i hd' as target hl' work c₁ performs =>
      simp only [accesses_access, accesses_append, accesses_map_access, accesses_note,
        accesses_nil, List.append_nil] at made
      obtain ⟨same, rest⟩ := List.cons.inj made
      obtain rfl : opcode' = opcode := congrArg Access.value same
      obtain rfl := Option.some.inj (hd'.symm.trans hd)
      obtain ⟨addr', v, -, rfl, rfl⟩ := performs.reads he
      have last := List.append_inj_right' rest rfl
      obtain rfl : v = y := congrArg Access.value (List.cons.inj last).1
      rw [Cpu.regs_complete]
      exact ⟨rfl, rfl⟩
  rcases settled with kept | ⟨kind, target, -, entered⟩
  · rw [kept, left.1, left.2]
    exact ⟨rfl, fun _ _ => rfl⟩
  · rw [entered, ← left.1, ← left.2]
    exact ⟨rfl, fun flag hf => Cpu.flags_entered kind target c.regs hf⟩

/-- A step for one column: the byte `y` is added to `x`, or subtracted from it, and leaves `z`. -/
structure Column (mnemonic : Mnemonic) (x y z : Byte) (m m' : Machine β ω) : Prop where
  accumulator : m.cpu.regs.a = x
  operand : m.Operand mnemonic y
  step : m.step = (.ok (), m')
  result : m'.cpu.regs.a = z

/-- What may come between two columns: instructions that cannot change the carry, and what the host
does, if it leaves the carry alone. -/
inductive Interlude : Machine β ω → Machine β ω → Prop
  | refl (m : Machine β ω) : Interlude m m
  | step {m m' m'' : Machine β ω} (hs : m.step = (.ok (), m'))
      (hw : ∀ i, .completed i ∈ m.entries → i.mnemonic ∉ Flag.carry.writers)
      (rest : Interlude m' m'') : Interlude m m''
  | host {m m' m'' : Machine β ω} (hc : m'.cpu.regs.flags.carry = m.cpu.regs.flags.carry)
      (rest : Interlude m' m'') : Interlude m m''

/-- Steps for all columns of two numbers, low bytes first, from `m` to `m'`. -/
inductive Columns (mnemonic : Mnemonic) :
    List Byte → List Byte → List Byte → Machine β ω → Machine β ω → Prop
  | last {x y z : Byte} {m m' : Machine β ω} (h : Column mnemonic x y z m m') :
      Columns mnemonic [x] [y] [z] m m'
  | cons {x y z : Byte} {xs ys zs : List Byte} {m m₁ m₂ m' : Machine β ω}
      (h : Column mnemonic x y z m m₁) (between : Interlude m₁ m₂)
      (rest : Columns mnemonic xs ys zs m₂ m') :
      Columns mnemonic (x :: xs) (y :: ys) (z :: zs) m m'

theorem Interlude.carry {m m' : Machine β ω} (h : Interlude m m') :
    m'.cpu.regs.flags.carry = m.cpu.regs.flags.carry := by
  induction h with
  | refl => rfl
  | @step m m' _ hs hw _ ih =>
    have kept : m'.cpu.regs.flags.get .carry = m.cpu.regs.flags.get .carry := by
      refine step_keeps_flag hs fun e member writes => ?_
      cases e with
      | completed i => exact hw i member writes
      | serviced => cases writes
      | _ => exact writes
    exact ih.trans kept
  | host hc _ ih => exact ih.trans hc

section Sums

variable {mnemonic : Mnemonic} {xs ys zs : List Byte} {m m' : Machine β ω}

theorem Columns.lengths (h : Columns mnemonic xs ys zs m m') :
    ys.length = xs.length ∧ zs.length = xs.length := by
  induction h with
  | last => exact ⟨rfl, rfl⟩
  | cons _ _ _ ih => simp [ih]

theorem Columns.ne_nil (h : Columns mnemonic xs ys zs m m') : xs ≠ [] ∧ ys ≠ [] := by
  cases h <;> simp

variable (hm : mnemonic = .ADC ∨ mnemonic = .SBC)

include hm

theorem Column.sum {x y z : Byte} (h : Column mnemonic x y z m m') :
    z.toNat + 256 * m'.cpu.regs.flags.carry.toNat =
      x.toNat + (mnemonic.summand y).toNat + m.cpu.regs.flags.carry.toNat ∧
    (m'.cpu.regs.flags.overflow = true ↔
      ¬ Fits 1 (signed x + signed (mnemonic.summand y) + m.cpu.regs.flags.carry.toNat)) := by
  obtain ⟨accumulator, flags⟩ := h.operand.effect h.step (Mnemonic.effect_of_sum hm)
  have carry : m'.cpu.regs.flags.carry = _ := flags .carry (by decide)
  have overflow : m'.cpu.regs.flags.overflow = _ := flags .overflow (by decide)
  rw [← h.result, accumulator, carry, overflow, ← h.accumulator]
  exact ⟨Registers.add_sum .., Registers.overflow_add ..⟩

theorem Columns.sum (h : Columns mnemonic xs ys zs m m') :
    value zs + 256 ^ xs.length * m'.cpu.regs.flags.carry.toNat =
      value xs + value (ys.map mnemonic.summand) + m.cpu.regs.flags.carry.toNat := by
  -- from the highest column down: what a column carries out the rest has carried in
  induction h with
  | last h =>
    have column := (h.sum hm).1
    simpa [value_singleton] using column
  | @cons x y z xs ys zs m m₁ m₂ m' h between rest ih =>
    have column := (h.sum hm).1
    rw [between.carry] at ih
    have scaled : 256 ^ (xs.length + 1) * m'.cpu.regs.flags.carry.toNat =
        256 * (256 ^ xs.length * m'.cpu.regs.flags.carry.toNat) := by ring
    rw [List.map_cons, value_cons, value_cons, value_cons, List.length_cons, scaled]
    omega

theorem Columns.overflow (h : Columns mnemonic xs ys zs m m') :
    m'.cpu.regs.flags.overflow = true ↔ ¬ Fits xs.length
      (signedValue xs + signedValue (ys.map mnemonic.summand) + m.cpu.regs.flags.carry.toNat) := by
  induction h with
  | last h =>
    have column := (h.sum hm).2
    simpa [signedValue_singleton] using column
  | @cons x y z xs ys zs m m₁ m₂ m' h between rest ih =>
    have column := (h.sum hm).1
    rw [between.carry] at ih
    obtain ⟨hx, hy⟩ := rest.ne_nil
    have hys : ys.map mnemonic.summand ≠ [] := mt List.map_eq_nil_iff.1 hy
    -- the sum is that of the rest, with the result of this column as its lowest byte
    have split : signedValue (x :: xs) + signedValue ((y :: ys).map mnemonic.summand) +
        m.cpu.regs.flags.carry.toNat = z.toNat + 256 * (signedValue xs +
          signedValue (ys.map mnemonic.summand) + m₁.cpu.regs.flags.carry.toNat) := by
      rw [List.map_cons, signedValue_cons x xs hx, signedValue_cons _ _ hys]
      omega
    rw [split, List.length_cons, fits_cons z (List.length_pos_of_ne_nil hx)]
    exact ih

end Sums

/-- A sum or a difference of two numbers that is made column by column is exact: the bytes that come
out and the last carry give the number, and the overflow flag is set just if it does not fit in as many
bytes in two's complement. A carry that is clear stands for a borrow in a difference. -/
theorem multiByte_exact {xs ys zs : List Byte} {m m' : Machine β ω} :
    let n := xs.length
    let c : Int := m.cpu.regs.flags.carry.toNat
    let c' : Int := m'.cpu.regs.flags.carry.toNat
    (Columns .ADC xs ys zs m m' →
      (ys.length = n ∧ zs.length = n) ∧ value zs + 256 ^ n * c' = value xs + value ys + c ∧
        (m'.cpu.regs.flags.overflow = true ↔
          ¬ Fits n (signedValue xs + signedValue ys + c))) ∧
    (Columns .SBC xs ys zs m m' →
      (ys.length = n ∧ zs.length = n) ∧
        value zs - 256 ^ n * (1 - c') = value xs - value ys - (1 - c) ∧
        (m'.cpu.regs.flags.overflow = true ↔
          ¬ Fits n (signedValue xs - signedValue ys - (1 - c)))) := by
  intro n c c'
  constructor
  · intro h
    have same : ys.map (Mnemonic.summand .ADC) = ys := List.map_id ys
    have sum := h.sum (.inl rfl)
    have overflow := h.overflow (.inl rfl)
    rw [same] at sum overflow
    refine ⟨h.lengths, ?_, overflow⟩
    show (value zs : Int) + 256 ^ xs.length * (m'.cpu.regs.flags.carry.toNat : Int) =
      value xs + value ys + m.cpu.regs.flags.carry.toNat
    exact_mod_cast sum
  · intro h
    have complements : ys.map (Mnemonic.summand .SBC) = ys.map (255 - ·) := rfl
    have sum := h.sum (.inr rfl)
    have overflow := h.overflow (.inr rfl)
    have complement := value_complement ys
    rw [h.lengths.1] at complement
    rw [complements] at sum overflow
    rw [signedValue_complement ys h.ne_nil.2] at overflow
    refine ⟨h.lengths, ?_, ?_⟩
    · show (value zs : Int) - 256 ^ xs.length * (1 - (m'.cpu.regs.flags.carry.toNat : Int)) =
        value xs - value ys - (1 - (m.cpu.regs.flags.carry.toNat : Int))
      zify at sum complement
      linear_combination sum + complement
    · have difference : signedValue xs + (-1 - signedValue ys) + m.cpu.regs.flags.carry.toNat =
          signedValue xs - signedValue ys - (1 - c) := by
        omega
      rw [← difference]
      exact overflow

def twoColumns (opcode a next : Byte) (carry : Bool) : Machine Memory Empty where
  cpu := { regs := { a, pc := 0x8000, flags := { carry } } }
  bus := Memory.zero.store 0x8000 [opcode, 0x01, 0xA9, next, opcode, 0x00]

def carrying : Machine Memory Empty := twoColumns 0x69 0xFF 0x7F false

def borrowing : Machine Memory Empty := twoColumns 0xE9 0x00 0x80 true

theorem twoColumns_exact :
    (Columns .ADC [0xFF, 0x7F] [0x01, 0x00] [0x00, 0x80] carrying (carrying.after 3) ∧
      (carrying.after 3).cpu.regs.flags.overflow = true) ∧
    Columns .SBC [0x00, 0x80] [0x01, 0x00] [0xFF, 0x7F] borrowing (borrowing.after 3) ∧
      (borrowing.after 3).cpu.regs.flags.overflow = true := by
  have load (i : Instruction)
      (member : .completed i ∈ [Entry.completed ⟨0xA9, .LDA, .immediate⟩]) :
      i.mnemonic ∉ Flag.carry.writers := by
    obtain rfl := Entry.completed.inj (List.mem_singleton.1 member)
    decide
  have sum : Columns .ADC [0xFF, 0x7F] [0x01, 0x00] [0x00, 0x80] carrying (carrying.after 3) := by
    refine .cons ⟨rfl, ?_, rfl, rfl⟩ (.step rfl load (.refl _)) (.last ⟨rfl, ?_, rfl, rfl⟩)
    · exact ⟨0x69, .immediate, [], _, rfl, .immediate, rfl⟩
    · exact ⟨0x69, .immediate, [], _, rfl, .immediate, rfl⟩
  have difference :
      Columns .SBC [0x00, 0x80] [0x01, 0x00] [0xFF, 0x7F] borrowing (borrowing.after 3) := by
    refine .cons ⟨rfl, ?_, rfl, rfl⟩ (.step rfl load (.refl _)) (.last ⟨rfl, ?_, rfl, rfl⟩)
    · exact ⟨0xE9, .immediate, [], _, rfl, .immediate, rfl⟩
    · exact ⟨0xE9, .immediate, [], _, rfl, .immediate, rfl⟩
  obtain ⟨-, -, tooLarge⟩ := multiByte_exact.1 sum
  obtain ⟨-, -, tooSmall⟩ := multiByte_exact.2 difference
  exact ⟨⟨sum, tooLarge.2 (by decide)⟩, difference, tooSmall.2 (by decide)⟩

end Machine

end Mos6502
