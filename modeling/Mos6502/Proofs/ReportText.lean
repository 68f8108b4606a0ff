import Mathlib.Data.List.Nodup
import Mos6502.CommandLine.Split
import Mos6502.Proofs.Reporting

namespace Mos6502

theorem Mnemonic.name_injective : Function.Injective Mnemonic.name := by
  have distinct : (Mnemonic.all.map Mnemonic.name).Nodup := by decide +kernel
  exact fun m m' h => List.inj_on_of_nodup_map distinct m.mem_all m'.mem_all h

theorem Mode.name_injective : Function.Injective Mode.name := by
  have distinct : (Mode.all.map Mode.name).Nodup := by decide +kernel
  have listed (m : Mode) : m ∈ Mode.all := by cases m <;> decide
  exact fun m m' h => List.inj_on_of_nodup_map distinct (listed m) (listed m') h

section Parts

variable {text text' rest rest' : String}

theorem append_inj_of_length (length : text.toList.length = text'.toList.length) :
    text ++ rest = text' ++ rest' ↔ text = text' ∧ rest = rest' := by
  simp only [← String.toList_inj, String.toList_append]
  constructor
  · exact fun h => List.append_inj h length
  · rintro ⟨h, h'⟩
    rw [h, h']

/-- Texts that lack the character with which the text behind them begins. -/
theorem append_inj_of_end {ending : String} {c : Char} {cs : List Char}
    (he : ending.toList = c :: cs) (free : c ∉ text.toList) (free' : c ∉ text'.toList) :
    text ++ (ending ++ rest) = text' ++ (ending ++ rest') ↔ text = text' ∧ rest = rest' := by
  constructor
  · intro h
    have split := congrArg (fun s => CommandLine.splitFirst c s.toList) h
    simp only [String.toList_append, he, List.cons_append, CommandLine.splitFirst_append _ free,
      CommandLine.splitFirst_append _ free', Option.some.injEq, Prod.mk.injEq,
      List.append_cancel_left_eq, String.toList_inj] at split
    exact split
  · rintro ⟨rfl, rfl⟩
    rfl

theorem bool_append_inj {b b' : Bool} :
    toString b ++ rest = toString b' ++ rest' ↔ b = b' ∧ rest = rest' := by
  cases b <;> cases b' <;> simp [toString, ← String.toList_inj]

theorem Hex.byte_append_inj {b b' : Byte} :
    byte b ++ rest = byte b' ++ rest' ↔ b = b' ∧ rest = rest' := by
  rw [append_inj_of_length (by simp [byte, byteChars])]
  refine and_congr_left fun _ => ⟨fun h => byteChars_injective ?_, congrArg byte⟩
  exact String.ofList_injective h

theorem Hex.word_append_inj {w w' : Addr} :
    word w ++ rest = word w' ++ rest' ↔ w = w' ∧ rest = rest' := by
  rw [append_inj_of_length (by simp [word, byteChars])]
  refine and_congr_left fun _ => ⟨fun h => ?_, congrArg word⟩
  obtain ⟨high, low⟩ := List.append_inj (String.ofList_injective h) rfl
  rw [← word_lowByte_highByte w, byteChars_injective high, byteChars_injective low,
    word_lowByte_highByte]

theorem Mnemonic.name_append_inj {m m' : Mnemonic} :
    m.name ++ rest = m'.name ++ rest' ↔ m = m' ∧ rest = rest' := by
  have three (m : Mnemonic) : m.name.toList.length = 3 := by cases m <;> rfl
  rw [append_inj_of_length (by rw [three, three])]
  exact and_congr_left fun _ => name_injective.eq_iff

/-- The names of the modes have different lengths, but none of them contains the bracket behind it. -/
theorem Mode.name_append_inj {m m' : Mode} :
    m.name ++ (")\n" ++ rest) = m'.name ++ (")\n" ++ rest') ↔ m = m' ∧ rest = rest' := by
  have free (m : Mode) : ')' ∉ m.name.toList := by cases m <;> decide
  rw [append_inj_of_end rfl (free m) (free m')]
  exact and_congr_left fun _ => name_injective.eq_iff

end Parts

namespace Report

variable {rest rest' : String}

theorem flagsLine_append_inj {f f' : Flags} :
    flagsLine f ++ rest = flagsLine f' ++ rest' ↔ f = f' ∧ rest = rest' := by
  obtain ⟨n, v, d, i, z, c⟩ := f
  obtain ⟨n', v', d', i', z', c'⟩ := f'
  simp only [flagsLine, String.append_assoc, String.append_right_inj, bool_append_inj,
    Flags.mk.injEq, and_assoc]

theorem instructionLine_append_inj {i i' : Instruction} :
    instructionLine i ++ rest = instructionLine i' ++ rest' ↔ i = i' ∧ rest = rest' := by
  obtain ⟨opcode, mnemonic, mode⟩ := i
  obtain ⟨opcode', mnemonic', mode'⟩ := i'
  unfold instructionLine
  simp only [toString, String.append_assoc, String.append_right_inj, Hex.byte_append_inj,
    Mnemonic.name_append_inj, Mode.name_append_inj, Instruction.mk.injEq, and_assoc]

theorem registersLine_append_inj {r r' : Registers} (flags : r.flags = r'.flags) :
    registersLine r ++ rest = registersLine r' ++ rest' ↔ r = r' ∧ rest = rest' := by
  obtain ⟨a, x, y, sp, pc, f⟩ := r
  obtain ⟨a', x', y', sp', pc', f'⟩ := r'
  obtain rfl : f = f' := flags
  unfold registersLine
  simp only [toString, String.append_assoc, String.append_right_inj, Hex.word_append_inj,
    Hex.byte_append_inj, Registers.mk.injEq, and_true]
  constructor
  · rintro ⟨pc, sp, a, x, y, rest⟩
    exact ⟨⟨a, x, y, sp, pc⟩, rest⟩
  · rintro ⟨⟨a, x, y, sp, pc⟩, rest⟩
    exact ⟨pc, sp, a, x, y, rest⟩

theorem heading_append_inj {v v' : View} : heading v ++ rest = heading v' ++ rest' ↔
    (v.instruction = v'.instruction ∧ v.regs = v'.regs) ∧ rest = rest' := by
  simp only [heading, String.append_assoc, String.append_right_inj, instructionLine_append_inj,
    flagsLine_append_inj, and_assoc]
  refine and_congr_right fun _ => ?_
  constructor
  · rintro ⟨flags, h⟩
    obtain ⟨regs, h⟩ := (registersLine_append_inj flags).1 h
    exact ⟨regs, (String.append_right_inj _).1 h⟩
  · rintro ⟨regs, h⟩
    rw [regs, h]
    exact ⟨rfl, rfl⟩

theorem cell_append_inj {b b' : Byte} : cell b ++ rest = cell b' ++ rest' ↔ b = b' ∧ rest = rest' := by
  simp only [cell, toString, String.append_assoc, String.append_right_inj, Hex.byte_append_inj]

theorem cells_append_inj {vs vs' : List Byte} (length : vs.length = vs'.length) :
    cells vs ++ rest = cells vs' ++ rest' ↔ vs = vs' ∧ rest = rest' := by
  induction vs generalizing vs' with
  | nil =>
    obtain rfl := List.eq_nil_of_length_eq_zero length.symm
    simp [cells]
  | cons v vs ih =>
    cases vs' with
    | nil => cases length
    | cons v' vs' =>
      have tails := ih (Nat.succ.inj length)
      unfold cells at tails ⊢
      rw [List.map_cons, List.map_cons, String.join_cons, String.join_cons, String.append_assoc,
        String.append_assoc, cell_append_inj, tails, List.cons.injEq, and_assoc]

theorem rows_append_inj (count : Nat) {addr : Addr} {vs vs' : List Byte}
    (length : vs.length = 16 * count) (length' : vs'.length = 16 * count) :
    rows count addr vs ++ rest = rows count addr vs' ++ rest' ↔ vs = vs' ∧ rest = rest' := by
  induction count generalizing addr vs vs' with
  | zero =>
    obtain rfl := List.eq_nil_of_length_eq_zero length
    obtain rfl := List.eq_nil_of_length_eq_zero length'
    simp [rows]
  | succ count ih =>
    have row : (vs.take 16).length = (vs'.take 16).length := by
      rw [List.length_take, List.length_take, length, length']
    have below : (vs.drop 16).length = 16 * count := by
      rw [List.length_drop, length]
      omega
    have below' : (vs'.drop 16).length = 16 * count := by
      rw [List.length_drop, length']
      omega
    simp only [rows, String.append_assoc, String.append_right_inj, cells_append_inj row,
      ih below below', ← and_assoc]
    refine and_congr_left fun _ => ⟨?_, ?_⟩
    · rintro ⟨first, others⟩
      rw [← List.take_append_drop 16 vs, first, others, List.take_append_drop]
    · rintro rfl
      exact ⟨rfl, rfl⟩

/-- A report determines what it reports, and where it ends: what follows must not begin as a dump
does, since a report without one could then be taken for a report with one. -/
theorem text_append_inj {v v' : View} {page page' : Option (List Byte)}
    (length : ∀ vs ∈ page, vs.length = 256) (length' : ∀ vs ∈ page', vs.length = 256)
    (undumped : rest.toList.head? ≠ some 'Z') (undumped' : rest'.toList.head? ≠ some 'Z')
    (h : text v page ++ rest = text v' page' ++ rest') :
    v.instruction = v'.instruction ∧ v.regs = v'.regs ∧ page = page' ∧ rest = rest' := by
  have dumped {vs : List Byte} {s : String} :
      ("Zeropage:\n" ++ (rows 16 0 vs ++ s)).toList.head? = some 'Z' := by
    rw [String.toList_append]
    rfl
  cases page with
  | none =>
    cases page' with
    | none =>
      rw [text_none, text_none] at h
      obtain ⟨⟨instruction, regs⟩, h⟩ := heading_append_inj.1 h
      exact ⟨instruction, regs, rfl, h⟩
    | some vs' =>
      simp only [text_none, text_some, String.append_assoc, heading_append_inj] at h
      rw [h.2] at undumped
      exact absurd dumped undumped
  | some vs =>
    cases page' with
    | none =>
      simp only [text_none, text_some, String.append_assoc, heading_append_inj] at h
      rw [← h.2] at undumped'
      exact absurd dumped undumped'
    | some vs' =>
      simp only [text_some, String.append_assoc, heading_append_inj, String.append_right_inj,
        rows_append_inj 16 (length vs rfl) (length' vs' rfl)] at h
      obtain ⟨⟨instruction, regs⟩, bytes, h⟩ := h
      exact ⟨instruction, regs, congrArg some bytes, h⟩

theorem text_inj {v v' : View} {page page' : List Byte} (length : page.length = 256)
    (length' : page'.length = 256) (h : text v (some page) = text v' (some page')) :
    v.instruction = v'.instruction ∧ v.regs = v'.regs ∧ page = page' := by
  have alone : text v (some page) ++ "" = text v' (some page') ++ "" := by rw [h]
  have undumped : "".toList.head? ≠ some 'Z' := by simp
  obtain ⟨instruction, regs, bytes, -⟩ :=
    text_append_inj (by simpa) (by simpa) undumped undumped alone
  exact ⟨instruction, regs, Option.some.inj bytes⟩

/-- A report of any instruction, with page zero or without. -/
def IsReport (report : String) : Prop :=
  ∃ (v : View) (page : Option (List Byte)), (∀ vs ∈ page, vs.length = 256) ∧ report = text v page

theorem IsReport.head? {report : String} (h : IsReport report) (rest : String) :
    (report ++ rest).toList.head? = some '\n' := by
  obtain ⟨v, page, -, rfl⟩ := h
  have begins : (heading v).toList.head? = some '\n' := by
    simp only [heading, String.append_assoc, String.toList_append]
    rfl
  cases page <;> simp [text_none, text_some, String.toList_append, begins]

theorem IsReport.append_ne_empty {report : String} (h : IsReport report) (rest : String) :
    report ++ rest ≠ "" := by
  intro empty
  have begins := h.head? rest
  rw [empty] at begins
  cases begins

theorem head?_join {reports : List String} (h : ∀ report ∈ reports, IsReport report) :
    (String.join reports).toList.head? ≠ some 'Z' := by
  cases reports with
  | nil => simp
  | cons report reports =>
    rw [String.join_cons, (h report List.mem_cons_self).head?]
    decide

/-- Reports in a row are told apart, whichever of them show page zero. -/
theorem join_inj {reports reports' : List String} (h : ∀ report ∈ reports, IsReport report)
    (h' : ∀ report ∈ reports', IsReport report) (same : String.join reports = String.join reports') :
    reports = reports' := by
  induction reports generalizing reports' with
  | nil =>
    cases reports' with
    | nil => rfl
    | cons report' reports' =>
      rw [String.join_cons] at same
      exact absurd same.symm ((h' report' List.mem_cons_self).append_ne_empty _)
  | cons report reports ih =>
    cases reports' with
    | nil =>
      rw [String.join_cons] at same
      exact absurd same ((h report List.mem_cons_self).append_ne_empty _)
    | cons report' reports' =>
      have others := fun r member => h r (List.mem_cons_of_mem report member)
      have others' := fun r member => h' r (List.mem_cons_of_mem report' member)
      obtain ⟨v, page, length, rfl⟩ := h _ List.mem_cons_self
      obtain ⟨v', page', length', rfl⟩ := h' _ List.mem_cons_self
      rw [String.join_cons, String.join_cons] at same
      obtain ⟨instruction, regs, rfl, behind⟩ :=
        text_append_inj length length' (head?_join others) (head?_join others') same
      have first : text v page = text v' page := by
        unfold text lines
        rw [instruction, regs]
      rw [first, ih others others' behind]

theorem newline_not_mem_byteChars (b : Byte) : '\n' ∉ Hex.byteChars b := by
  have digits : ∀ n < 16, '\n' ≠ Hex.digit n := by decide
  have small := b.toNat_lt
  simp only [Hex.byteChars, List.mem_cons, List.not_mem_nil, or_false, not_or]
  exact ⟨digits _ (by omega), digits _ (by omega)⟩

theorem newline_not_mem_rowLabel (addr : Addr) : '\n' ∉ (rowLabel addr).toList := by
  simp [rowLabel, toString, Hex.word, newline_not_mem_byteChars]

theorem newline_not_mem_cells (vs : List Byte) : '\n' ∉ (cells vs).toList := by
  simp [cells, cell, toString, Hex.byte, newline_not_mem_byteChars]

namespace Row

def addrs (row : Row) : List Addr :=
  (List.range row.bytes.length).map fun i => row.label + UInt16.ofNat i

theorem newline_not_mem_line (row : Row) : '\n' ∉ row.line.toList := by
  rw [line_eq, String.toList_append, List.mem_append, not_or]
  exact ⟨newline_not_mem_rowLabel row.label, newline_not_mem_cells row.bytes⟩

end Row

/-- `table` shows the bytes `page` of page zero: each address occurs once, in ascending order, and
byte `r + i` stands in column `i` of the row labelled `r`. -/
structure ShowsPage (page : List Byte) (table : List Row) : Prop where
  rows : table.length = 16
  columns : ∀ row ∈ table, row.bytes.length = 16
  addrs : table.flatMap Row.addrs = (List.range 256).map UInt16.ofNat
  bytes : ∀ row ∈ table, ∀ i < 16, row.bytes[i]? = page[row.label.toNat + i]?

theorem showsPage_table {page : List Byte} (length : page.length = 256) :
    ShowsPage page (table 16 0 page) := by
  have columns (r : Nat) (hr : r < 16) : ((page.drop (16 * r)).take 16).length = 16 := by
    rw [List.length_take, List.length_drop, length]
    omega
  constructor
  case rows => rw [table, List.length_map, List.length_range]
  case columns =>
    intro row member
    obtain ⟨r, hr, rfl⟩ := List.mem_map.1 member
    exact columns r (List.mem_range.1 hr)
  case addrs =>
    have row (r : Nat) (hr : r ∈ List.range 16) :
        Row.addrs ⟨0 + UInt16.ofNat (16 * r), (page.drop (16 * r)).take 16⟩ =
          (List.range 16).map fun i => 0 + UInt16.ofNat (16 * r) + UInt16.ofNat i := by
      rw [Row.addrs, columns r (List.mem_range.1 hr)]
    rw [table, List.flatMap_map, List.flatMap_congr row]
    decide +kernel
  case bytes =>
    intro row member i hi
    obtain ⟨r, hr, rfl⟩ := List.mem_map.1 member
    have small : 16 * r < 2 ^ 16 := by
      have := List.mem_range.1 hr
      omega
    rw [List.getElem?_take_of_lt hi, List.getElem?_drop, UInt16.zero_add,
      UInt16.toNat_ofNat_of_lt' small]

end Report

end Mos6502
