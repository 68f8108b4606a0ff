import Mos6502.Proofs.Allowance
import Mos6502.Proofs.ReportText

namespace Mos6502

theorem getElem?_bytesAt (mem : Addr → Byte) (addr : Addr) {count i : Nat} (hi : i < count) :
    (bytesAt mem addr count)[i]? = some (mem (addr + UInt16.ofNat i)) := by
  induction count generalizing addr i with
  | zero => cases hi
  | succ count ih =>
    cases i with
    | zero => exact congrArg (fun a => some (mem a)) (UInt16.add_zero addr).symm
    | succ i =>
      have next : addr + 1 + UInt16.ofNat i = addr + UInt16.ofNat (i + 1) := by
        rw [UInt16.ofNat_add, UInt16.add_assoc, UInt16.add_comm 1]
        rfl
      rw [bytesAt, List.getElem?_cons_succ, ih (addr + 1) (Nat.lt_of_succ_lt_succ hi), next]

/-- The bus `b` answers reads of page zero, from its first address to its last, with the bytes `page`
and becomes `b'`. -/
structure ReadsPage {β : Type} [Bus β] (b : β) (page : List Byte) (b' : β) : Prop where
  length : page.length = 256
  served : Serves b (reading 0 page) b'

theorem ReadsPage.holds {β : Type} [Bus β] {b b' : β} {page : List Byte} (h : ReadsPage b page b')
    {cell : β → Addr → Byte} (hc : Bus.Holds cell) {addr : Addr} (small : addr.toNat < 256) :
    page[addr.toNat]? = some (cell b addr) := by
  have held := hc.of_reading h.served
  rw [h.length] at held
  rw [held, getElem?_bytesAt _ _ small, UInt16.zero_add, UInt16.ofNat_toNat]

theorem Report.ShowsPage.holds {β : Type} [Bus β] {b b' : β} {page : List Byte} {table : List Row}
    (h : ShowsPage page table) (hp : ReadsPage b page b') {cell : β → Addr → Byte}
    (hc : Bus.Holds cell) {row : Row} (member : row ∈ table) {i : Nat} (hi : i < 16) :
    row.bytes[i]? = some (cell b (row.label + UInt16.ofNat i)) := by
  have found := h.bytes row member i hi
  have shown : i < row.bytes.length := by
    rw [h.columns row member]
    exact hi
  have within : row.label.toNat + i < 256 := by
    rw [List.getElem?_eq_getElem shown] at found
    obtain ⟨within, -⟩ := List.getElem?_eq_some_iff.1 found.symm
    rwa [hp.length] at within
  have place : (row.label + UInt16.ofNat i).toNat = row.label.toNat + i := by
    rw [UInt16.toNat_add, UInt16.toNat_ofNat']
    omega
  rw [found, ← place]
  apply hp.holds hc
  rw [place]
  exact within

namespace Telling

variable {β : Type} [Bus β]

def said {ω : Type} [Observer ω] (t : Telling β ω) : String :=
  printedBy (fun _ => true) t.ending.notes

/-- A report is printed that shows page zero. -/
structure Dumps (t : Telling β Reporter) : Prop where
  zeroPage : t.observer.zeroPage = true
  prints : t.observer.prints = true
  answered : t.Answered

variable {t : Telling β Reporter}

theorem Dumps.said_eq (h : t.Dumps) :
    ∃ page, ReadsPage t.bus page t.ending.bus ∧ t.said = Report.text t.view (some page) := by
  obtain ⟨as, text, ⟨-, -, page, length, rfl, rfl⟩, served, prints⟩ :=
    uttered h.answered (t.observer.utters t.view t.stopSeen)
  refine ⟨page, ⟨length, ?_⟩, ?_⟩
  · rw [Reporter.reads, h.prints, h.zeroPage] at served
    exact served
  · rw [said, prints, Reporter.report, h.prints, h.zeroPage]
    rfl

theorem answered_of_neverFaults (hb : Bus.NeverFaults t.bus) : t.Answered := by
  have told : (Observer.told t.view t.stopSeen t.position).Ensures t.observer _ :=
    (t.observer.utters t.view t.stopSeen).activity_ensures t.position id
  cases ended : t.ending.outcome with
  | ok a => exact (answered_of_ok ended).1
  | error why => exact absurd rfl ((told.on_abort hb ended).1 why)

end Telling

namespace Machine

section Splitting

variable {β : Type} [Bus β] {m : Machine β Standard}

theorem Reported.isReport {zeroPage : Bool} {text : String} (h : m.Reported zeroPage text) :
    Report.IsReport text := by
  obtain ⟨view, page, -, length, -, rfl⟩ := h
  refine ⟨view, if zeroPage then some page else none, ?_, rfl⟩
  cases zeroPage with
  | false => nofun
  | true =>
    rintro _ ⟨⟩
    exact length

theorem Completes.modifyRegs {f : Registers → Registers} {m' : Machine β Standard}
    {ms : List (Machine β Standard)} (h : Completes (m.modifyRegs f) ms m') : Completes m ms m' := by
  refine .between ?_ ?_ h
  · rfl
  · exact fun _ => rfl

theorem isReport_of_reported {zeroPage : Bool} {ms : List (Machine β Standard)} {texts : List String}
    (h : List.Forall₂ (fun m text => m.Reported zeroPage text) ms texts) :
    ∀ text ∈ texts, Report.IsReport text := by
  induction h with
  | nil => nofun
  | cons first _ ih => exact List.forall_mem_cons.2 ⟨first.isReport, ih⟩

end Splitting

/-- Equal reports with page zero tell of the same instruction, flags and registers, and of the same 256
bytes. Such a report is printed wherever the sink takes it and the bus does not fault, and its dump is a
table with a line for every sixteen addresses. What a reporter prints in the course of any instructions
that complete is one report of each, and there is no other way to read it as reports. -/
theorem reports_can_be_read_back {β β' : Type} [Bus β] [Bus β'] :
    (∀ (t : Telling β Reporter) (t' : Telling β' Reporter), t.Dumps → t'.Dumps → t.said = t'.said →
      t.view.instruction = t'.view.instruction ∧ t.view.regs = t'.view.regs ∧
      (∃ page, ReadsPage t.bus page t.ending.bus ∧ ReadsPage t'.bus page t'.ending.bus) ∧
      ∀ cell cell', Bus.Holds cell → Bus.Holds cell' → ∀ addr : Addr, addr.toNat < 256 →
        cell t.bus addr = cell' t'.bus addr) ∧
    (∀ t : Telling β Reporter, t.observer.zeroPage = true → t.observer.prints = true →
      Bus.NeverFaults t.bus → t.Dumps) ∧
    (∀ t : Telling β Reporter, t.Dumps → ∃ page table, ReadsPage t.bus page t.ending.bus ∧
      Report.ShowsPage page table ∧ (∀ row ∈ table, '\n' ∉ row.line.toList) ∧
      (∀ cell, Bus.Holds cell → ∀ row ∈ table, ∀ i < 16,
        row.bytes[i]? = some (cell t.bus (row.label + UInt16.ofNat i))) ∧
      t.said = String.join (Report.lines t.view) ++ "Zeropage:\n" ++
        String.join (table.map fun row => row.line ++ "\n")) ∧
    ∀ (m m' : Machine β Standard) (ms : List (Machine β Standard)) (p : Nat) (r : Reporter),
      Completes m ms m' → m.observers[p]? = some (.reporter r) → r.PrintsNext ms.length →
      ∃ texts : List String, List.Forall₂ (fun m text => m.Reported r.zeroPage text) ms texts ∧
        m'.output (· == p) = m.output (· == p) ++ String.join texts ∧
        ∀ reports : List String, (∀ report ∈ reports, Report.IsReport report) →
          String.join reports = String.join texts → reports = texts := by
  refine ⟨?_, ?_, ?_, ?_⟩
  · intro t t' dumps dumps' same
    obtain ⟨page, reads, said⟩ := dumps.said_eq
    obtain ⟨page', reads', said'⟩ := dumps'.said_eq
    rw [said, said'] at same
    obtain ⟨instruction, regs, rfl⟩ := Report.text_inj reads.length reads'.length same
    refine ⟨instruction, regs, ⟨page, reads, reads'⟩, fun cell cell' hc hc' addr small => ?_⟩
    exact Option.some.inj ((reads.holds hc small).symm.trans (reads'.holds hc' small))
  · exact fun t zeroPage prints safe => ⟨zeroPage, prints, Telling.answered_of_neverFaults safe⟩
  · intro t dumps
    obtain ⟨page, reads, said⟩ := dumps.said_eq
    have shows := Report.showsPage_table reads.length
    refine ⟨page, _, reads, shows, fun row _ => row.newline_not_mem_line, ?_, ?_⟩
    · exact fun cell hc row member i hi => shows.holds reads hc member hi
    · exact said
  · intro m m' ms p r completes found prints
    obtain ⟨texts, reported, output⟩ := completes.reports (OnlyReporter.of_found found) prints
    refine ⟨texts, reported, output, fun reports whole same => ?_⟩
    exact Report.join_inj whole (isReport_of_reported reported) same

/-- A reporter that is told of a `NOP`, with `v` at 0x0011. -/
def dumped (v : Byte) : Telling Memory Reporter where
  position := 0
  observer := { zeroPage := true }
  view := ⟨{}, ⟨0xEA, .NOP, .implicit⟩, 1⟩
  stopSeen := false
  bus := Memory.zero.write 0x0011 v

/-- `LDA #$42`, under a limit and a reporter that shows page zero. -/
def dumping : Machine Memory Standard where
  cpu := { regs := { pc := 0x8000 } }
  bus := Memory.zero.store 0x8000 [0xA9, 0x42]
  observers := [.limit { limit := 5 }, .reporter { zeroPage := true }]

def dumpingAgain : Machine Memory Standard := dumping.step.2.modifyRegs (·.setPc 0x8000)

/-- A byte shows in the row to which it belongs, and another byte makes another report. What is printed of
two instructions is two reports. -/
theorem dumped_bytes_are_read_back :
    (dumped 0xAB).said ≠ (dumped 0xAC).said ∧
    (∃ table : List Report.Row, (dumped 0xAB).said = String.join (Report.lines (dumped 0xAB).view) ++
        "Zeropage:\n" ++ String.join (table.map fun row => row.line ++ "\n") ∧
      ∀ row ∈ table, row.label = 0x0010 → row.bytes[1]? = some 0xAB) ∧
    ∃ first second, dumpingAgain.step.2.output (· == 1) = first ++ second ∧
      dumping.Reported true first ∧ dumpingAgain.Reported true second ∧
      ∀ reports : List String, (∀ report ∈ reports, Report.IsReport report) →
        String.join reports = first ++ second → reports = [first, second] := by
  obtain ⟨determined, printed, tabulated, split⟩ := @reports_can_be_read_back Memory Memory _ _
  have dumps (v : Byte) : (dumped v).Dumps := printed _ rfl rfl Memory.neverFaults
  refine ⟨fun same => ?_, ?_, ?_⟩
  · obtain ⟨-, -, -, bytes⟩ := determined _ _ (dumps 0xAB) (dumps 0xAC) same
    have byte := bytes _ _ Memory.holds Memory.holds 0x0011 (by decide)
    exact absurd byte (by decide)
  · obtain ⟨page, table, -, -, -, holds, said⟩ := tabulated _ (dumps 0xAB)
    refine ⟨table, said, fun row member label => ?_⟩
    rw [holds _ Memory.holds row member 1 (by decide), label]
    rfl
  · have first : dumping.step.1 = .ok () := by decide +kernel
    have again : dumpingAgain.step.1 = .ok () := by decide +kernel
    have step {m : Machine Memory Standard} (h : m.step.1 = .ok ()) :
        m.step = (.ok (), m.step.2) := Prod.ext h rfl
    have second : Completes dumpingAgain [dumpingAgain] dumpingAgain.step.2 :=
      .step (step again) (.nil _)
    have completes : Completes dumping [dumping, dumpingAgain] dumpingAgain.step.2 :=
      .step (step first) (second.modifyRegs (m := dumping.step.2))
    obtain ⟨texts, reported, output, unique⟩ :=
      split _ _ _ 1 { zeroPage := true } completes rfl (.inr nofun)
    rw [List.forall₂_cons_left_iff] at reported
    obtain ⟨first, _, begins, rest, rfl⟩ := reported
    rw [List.forall₂_cons_left_iff] at rest
    obtain ⟨second, _, follows, none, rfl⟩ := rest
    obtain rfl := List.forall₂_nil_left_iff.1 none
    have joined : String.join [first, second] = first ++ second := by
      rw [String.join_cons, String.join_cons, String.join_nil, String.append_empty]
    rw [joined] at output unique
    refine ⟨first, second, ?_, begins, follows, unique⟩
    rw [output]
    exact String.empty_append

end Machine

end Mos6502
