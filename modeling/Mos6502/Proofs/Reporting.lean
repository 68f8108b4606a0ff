import Mos6502.Observer.Standard
import Mos6502.Proofs.Telling

namespace Mos6502

namespace Report

/-- `n` in `width` hexadecimal digits. -/
def hexChars : (width n : Nat) → List Char
  | 0, _ => []
  | width + 1, n => hexChars width (n / 16) ++ ["0123456789ABCDEF".toList.getD (n % 16) ' ']

def hex (width n : Nat) : String := String.ofList (hexChars width n)

def lines (v : View) : List String :=
  let i := v.instruction
  let r := v.regs
  let f := r.flags
  ["\n",
    s!"Result of instruction 0x{hex 2 i.opcode.toNat} ({i.mnemonic.name}, {i.mode.name})\n",
    s!"Neg: {f.negative}, Ovr: {f.overflow}, Dec: {f.decimal}, Int: {f.interruptDisable}, " ++
      s!"Zer: {f.zero}, Car: {f.carry}\n",
    s!"PC: 0x{hex 4 r.pc.toNat}, SP: 0x{hex 2 r.sp.toNat}, A: 0x{hex 2 r.a.toNat}, " ++
      s!"X: 0x{hex 2 r.x.toNat}, " ++ s!"Y: 0x{hex 2 r.y.toNat}\n"]

/-- One row of a dump: the bytes from `label` on, in columns. -/
structure Row where
  label : Addr
  bytes : List Byte
  deriving DecidableEq, Repr

def Row.line (row : Row) : String :=
  s!"0x{hex 4 row.label.toNat}:" ++ String.join (row.bytes.map fun v => s!" {hex 2 v.toNat}")

def table (count : Nat) (addr : Addr) (vs : List Byte) : List Row :=
  (List.range count).map fun r =>
    ⟨addr + UInt16.ofNat (16 * r), (vs.drop (16 * r)).take 16⟩

/-- A whole report, with the bytes of page zero if they are asked for. -/
def text (v : View) (page : Option (List Byte)) : String :=
  match page with
  | none => String.join (lines v)
  | some vs => String.join (lines v) ++ "Zeropage:\n" ++
    String.join ((table 16 0 vs).map fun row => row.line ++ "\n")

section Spelled

theorem digit_eq : ∀ n < 16, Hex.digit n = "0123456789ABCDEF".toList.getD n ' ' := by decide

theorem byte_eq_hex (b : Byte) : Hex.byte b = hex 2 b.toNat := by
  have small := b.toNat_lt
  have high : b.toNat / 16 = b.toNat / 16 % 16 := by omega
  rw [Hex.byte, Hex.byteChars, high, digit_eq _ (by omega), digit_eq _ (by omega)]
  rfl

theorem word_eq_hex (w : Addr) : Hex.word w = hex 4 w.toNat := by
  have small := w.toNat_lt
  have h3 : w.toNat / 256 / 16 = w.toNat / 16 / 16 / 16 % 16 := by omega
  have h2 : w.toNat / 256 % 16 = w.toNat / 16 / 16 % 16 := by omega
  have h1 : w.toNat % 256 / 16 = w.toNat / 16 % 16 := by omega
  have h0 : w.toNat % 256 % 16 = w.toNat % 16 := by omega
  have high : (highByte w).toNat = w.toNat / 256 :=
    UInt8.toNat_ofNat'.trans (Nat.mod_eq_of_lt (by omega))
  have low : (lowByte w).toNat = w.toNat % 256 :=
    UInt8.toNat_ofNat'.trans (Nat.mod_eq_of_lt (by omega))
  rw [Hex.word, Hex.byteChars, Hex.byteChars, high, low]
  simp only [h3, h2, h1, h0, digit_eq, Nat.mod_lt, Nat.zero_lt_succ]
  rfl

theorem heading_eq_join (v : View) : heading v = String.join (lines v) := by
  unfold heading instructionLine flagsLine registersLine lines
  simp only [byte_eq_hex, word_eq_hex, String.join_cons, String.join_nil, String.append_assoc,
    String.append_empty]
  rfl

def cells (vs : List Byte) : String := String.join (vs.map cell)

theorem Row.line_eq (row : Row) : row.line = rowLabel row.label ++ cells row.bytes := by
  unfold line rowLabel cells cell
  simp only [byte_eq_hex, word_eq_hex]

/-- `count` rows of sixteen cells, the first of them from `addr` on, in which `vs` lies. -/
def rows : (count : Nat) → Addr → (vs : List Byte) → String
  | 0, _, _ => ""
  | count + 1, addr, vs =>
    rowLabel addr ++ cells (vs.take 16) ++ "\n" ++ rows count (addr + 16) (vs.drop 16)

theorem table_succ (count : Nat) (addr : Addr) (vs : List Byte) : table (count + 1) addr vs =
    ⟨addr, vs.take 16⟩ :: table count (addr + 16) (vs.drop 16) := by
  have label (r : Nat) : addr + UInt16.ofNat (16 * (r + 1)) = addr + 16 + UInt16.ofNat (16 * r) := by
    rw [Nat.mul_succ, Nat.add_comm, UInt16.ofNat_add, UInt16.add_assoc]
    rfl
  have drop (r : Nat) : vs.drop (16 * (r + 1)) = (vs.drop 16).drop (16 * r) := by
    rw [List.drop_drop, Nat.mul_succ, Nat.add_comm]
  rw [table, List.range_succ_eq_map, List.map_cons, List.map_map]
  refine List.cons_eq_cons.2 ⟨by simp, List.map_congr_left fun r _ => ?_⟩
  show Row.mk (addr + UInt16.ofNat (16 * (r + 1))) ((vs.drop (16 * (r + 1))).take 16) = _
  rw [label, drop]

theorem rows_eq_join (count : Nat) (addr : Addr) (vs : List Byte) : rows count addr vs =
    String.join ((table count addr vs).map fun row => row.line ++ "\n") := by
  induction count generalizing addr vs with
  | zero => rfl
  | succ count ih => rw [table_succ, List.map_cons, String.join_cons, ← ih, Row.line_eq, rows]

theorem text_none (v : View) : text v none = heading v := (heading_eq_join v).symm

theorem text_some (v : View) (vs : List Byte) :
    text v (some vs) = heading v ++ "Zeropage:\n" ++ rows 16 0 vs := by
  rw [heading_eq_join, rows_eq_join, text]

end Spelled

end Report

/-- The reads that find `vs` from `addr` on. -/
def reading : Addr → (vs : List Byte) → List Access
  | _, [] => []
  | addr, v :: vs => ⟨.read, addr, v⟩ :: reading (addr + 1) vs

theorem reading_append (addr : Addr) (vs ws : List Byte) :
    reading addr (vs ++ ws) = reading addr vs ++ reading (addr + UInt16.ofNat vs.length) ws := by
  induction vs generalizing addr with
  | nil => simp [reading]
  | cons v vs ih =>
    have next : addr + 1 + UInt16.ofNat vs.length = addr + UInt16.ofNat (vs.length + 1) := by
      rw [UInt16.ofNat_add, UInt16.add_assoc, UInt16.add_comm 1]
      rfl
    rw [List.cons_append, reading, ih, next]
    rfl

def bytesAt (mem : Addr → Byte) : Addr → (count : Nat) → List Byte
  | _, 0 => []
  | addr, count + 1 => mem addr :: bytesAt mem (addr + 1) count

theorem Bus.Holds.of_reading {β : Type} [Bus β] {cell : β → Addr → Byte} (hc : Bus.Holds cell)
    {b b' : β} {addr : Addr} {vs : List Byte} (h : Serves b (reading addr vs) b') :
    vs = bytesAt (cell b) addr vs.length := by
  induction vs generalizing addr b with
  | nil => rfl
  | cons v vs ih =>
    cases h with
    | read hr rest =>
      obtain ⟨held, same⟩ := hc.read hr
      have later := ih rest
      rw [same] at later
      rw [List.length_cons, bytesAt, ← held, ← later]

def Control.askIf (asks : Bool) : Control := if asks then .ask else .leave

theorem Control.applyAll_askIf {α : Type} (asks : α → Bool) (as : List α) (stop : Bool) :
    applyAll (as.map fun a => askIf (asks a)) stop = (stop || as.any asks) := by
  have stands : .withdraw ∉ as.map fun a => askIf (asks a) := by
    simp only [List.mem_map, not_exists, not_and]
    intro a _
    cases asks a <;> nofun
  have asked (a : α) : decide (askIf (asks a) = .ask) = asks a := by
    cases asks a <;> rfl
  rw [applyAll_of_not_withdraw stands, List.any_map]
  simp only [Function.comp_def, asked]

namespace Probe

variable {ω ω' σ : Type}

/-- However its reads are answered, the probe does not fault, and `Q` holds of its reads, of the text
it prints, of what the observer becomes, and of what it does with the request to stop. -/
def Utters : Probe ω → (List Access → String → ω → Control → Prop) → Prop
  | .done self control, Q => Q [] "" self control
  | .fault _ _, _ => False
  | .read _ addr next, Q => ∀ v, (next v).Utters fun as => Q (⟨.read, addr, v⟩ :: as)
  | .peek _ next, Q => ∀ v, (next v).Utters Q
  | .print text next, Q => next.Utters fun as said => Q as (text ++ said)
  | .log _ next, Q | .keep _ next, Q | .pause _ next, Q => next.Utters Q

theorem utters_map (f : ω → ω') (p : Probe ω) (Q : List Access → String → ω' → Control → Prop) :
    (p.map f).Utters Q ↔ p.Utters fun as said self => Q as said (f self) := by
  induction p generalizing Q with
  | done _ _ | fault _ _ => exact Iff.rfl
  | read _ _ _ ih | peek _ _ ih => exact forall_congr' fun v => ih v _
  | print _ _ ih | log _ _ ih | keep _ _ ih | pause _ _ ih => exact ih _

theorem Utters.mono {p : Probe ω} {Q R : List Access → String → ω → Control → Prop} (h : p.Utters Q)
    (hQR : ∀ as said self control, Q as said self control → R as said self control) : p.Utters R := by
  induction p generalizing Q R with
  | done _ _ => exact hQR _ _ _ _ h
  | fault _ _ => exact h
  | read _ _ _ ih => exact fun v => ih v (h v) fun _ => hQR _
  | peek _ _ ih => exact fun v => ih v (h v) hQR
  | print _ _ ih => exact ih h fun _ _ => hQR _ _
  | log _ _ ih | keep _ _ ih | pause _ _ ih => exact ih h hQR

theorem Utters.safe {p : Probe ω} {Q : List Access → String → ω → Control → Prop} {P : ω → Control → Prop}
    (h : p.Utters Q) (hP : ∀ {as said self control}, Q as said self control → P self control) :
    p.Safe P := by
  induction p generalizing Q with
  | done _ _ => exact hP h
  | fault _ _ => exact h
  | read _ _ _ ih | peek _ _ ih => exact fun v => ih v (h v) hP
  | print _ _ ih | log _ _ ih | keep _ _ ih | pause _ _ ih => exact ih h hP

end Probe

/-- What a note says was printed, by an observer at one of the positions that `sel` selects. -/
def Note.textOf (sel : Nat → Bool) : Note → String
  | .printed observer text => if sel observer then text else ""
  | _ => ""

def printedBy (sel : Nat → Bool) (ns : List Note) : String :=
  String.join (ns.map (Note.textOf sel))

theorem printedBy_cons (sel : Nat → Bool) (n : Note) (ns : List Note) :
    printedBy sel (n :: ns) = n.textOf sel ++ printedBy sel ns :=
  String.join_cons

theorem printedBy_append (sel : Nat → Bool) (ns ms : List Note) :
    printedBy sel (ns ++ ms) = printedBy sel ns ++ printedBy sel ms := by
  rw [printedBy, List.map_append, String.join_append]
  rfl

def Silent (ns : List Note) : Prop := ∀ n ∈ ns, n.isPrinted = false

@[simp] theorem silent_nil : Silent [] := by simp [Silent]

@[simp] theorem silent_append (ns ms : List Note) : Silent (ns ++ ms) ↔ Silent ns ∧ Silent ms := by
  simp [Silent, or_imp, forall_and]

@[simp] theorem silent_log (line : LogLine) (ns : List Note) :
    Silent (.log line :: ns) ↔ Silent ns := by
  simp [Silent, Note.isPrinted]

@[simp] theorem notes_note (n : Note) (es : List Event) : notes (.note n :: es) = n :: notes es := rfl

@[simp] theorem notes_poll (line : Bool) (es : List Event) : notes (.poll line :: es) = notes es :=
  rfl

@[simp] theorem notes_nil : notes [] = [] := rfl

theorem Silent.printedBy {ns : List Note} (h : Silent ns) (sel : Nat → Bool) :
    printedBy sel ns = "" := by
  induction ns with
  | nil => rfl
  | cons n ns ih =>
    have here := h n List.mem_cons_self
    rw [printedBy_cons, ih fun n' member => h n' (List.mem_cons_of_mem n member)]
    cases n with
    | printed _ _ => cases here
    | _ => rfl

theorem printedBy_kept (sel : Nat → Bool) (level : LogLevel) (ns : List Note) :
    printedBy sel (ns.filter (Note.kept level)) = printedBy sel ns := by
  induction ns with
  | nil => rfl
  | cons n ns ih =>
    rw [List.filter_cons, printedBy_cons]
    split
    · rw [printedBy_cons, ih]
    · rename_i dropped
      rw [ih]
      cases n with
      | log _ => exact String.empty_append.symm
      | _ => exact absurd rfl dropped

theorem printedBy_flatMap_eq_empty {α : Type} {sel : Nat → Bool} {f : α → List Note} {as : List α}
    (h : ∀ a ∈ as, printedBy sel (f a) = "") : printedBy sel (as.flatMap f) = "" := by
  induction as with
  | nil => rfl
  | cons a as ih =>
    rw [List.flatMap_cons, printedBy_append, h a List.mem_cons_self,
      ih fun a' member => h a' (List.mem_cons_of_mem a member)]
    rfl

theorem printedBy_flatMap {α : Type} {sel : Nat → Bool} {f : α → List Note} {as : List α} {p : Nat}
    {a : α} (ha : as[p]? = some a)
    (others : ∀ q a', q ≠ p → as[q]? = some a' → printedBy sel (f a') = "") :
    printedBy sel (as.flatMap f) = printedBy sel (f a) := by
  induction as generalizing p with
  | nil => cases ha
  | cons first as ih =>
    rw [List.flatMap_cons, printedBy_append]
    cases p with
    | zero =>
      cases ha
      have rest : printedBy sel (as.flatMap f) = "" := by
        apply printedBy_flatMap_eq_empty
        intro a' member
        obtain ⟨q, hq⟩ := List.getElem?_of_mem member
        exact others (q + 1) a' (by simp) hq
      rw [rest, String.append_empty]
    | succ p =>
      rw [others 0 first (by simp) rfl, String.empty_append]
      exact ih ha fun q a' hq => others (q + 1) a' (by simpa using hq)

theorem Probe.printedBy_activity {β ω σ : Type} [Bus β] {sel : Nat → Bool} {position : Nat}
    (other : sel position = false) (p : Probe ω) (put : ω → σ) (b : β) :
    printedBy sel ((p.activity position put).on b).notes = "" := by
  induction p generalizing b with
  | done _ _ | fault _ _ => rfl
  | read _ _ _ ih =>
    simp only [activity, Activity.on]
    split
    · exact ih _ _
    · rfl
  | peek _ _ ih => exact ih _ b
  | print _ _ ih =>
    simp only [activity, Activity.on, printedBy_cons, ih, Note.textOf, other]
    rfl
  | log _ _ ih | keep _ _ ih | pause _ _ ih =>
    simp only [activity, Activity.on, printedBy_cons, ih]
    rfl

theorem Probe.Utters.activity_ensures {ω σ : Type} {p : Probe ω}
    {Q : List Access → String → ω → Control → Prop} (h : p.Utters Q) (position : Nat) (put : ω → σ) :
    (p.activity position put).Ensures fun es o =>
      o.Then (fun _ a => ∃ said, Q (accesses es) said a.1 a.2 ∧
        ∀ sel, printedBy sel (notes es) = if sel position then said else "")
      fun _ why => ∀ a, why ≠ .abort a := by
  induction p generalizing Q with
  | done self control => exact ⟨"", h, fun sel => by simp [printedBy, notes]⟩
  | fault _ _ => exact h.elim
  | read _ _ _ ih => exact ⟨by simp, fun v => ih v (h v)⟩
  | peek _ _ ih => exact fun v => ih v (h v)
  | print text next ih =>
    refine (ih h).mono fun es o told => ?_
    cases o with
    | cut _ why => exact told
    | done _ a =>
      obtain ⟨said, holds, prints⟩ := told
      refine ⟨text ++ said, holds, fun sel => ?_⟩
      show printedBy sel (.printed position text :: notes es) = _
      rw [printedBy_cons, prints, Note.textOf]
      split
      · rfl
      · rfl
  -- these print nothing
  | log _ next ih | keep _ next ih | pause _ next ih =>
    refine (ih h).mono fun es o told => ?_
    cases o with
    | cut _ why => exact told
    | done _ a =>
      obtain ⟨said, holds, prints⟩ := told
      refine ⟨said, holds, fun sel => ?_⟩
      show printedBy sel (_ :: notes es) = _
      rw [printedBy_cons, prints]
      exact String.empty_append

namespace Report

variable {ω : Type} {self : ω} {next : Probe ω} {Q : List Access → String → ω → Control → Prop}

theorem utters_printCells (count : Nat) {addr : Addr}
    (h : ∀ vs : List Byte, vs.length = count →
      next.Utters fun as said => Q (reading addr vs ++ as) (cells vs ++ said)) :
    (printCells self next count addr).Utters Q := by
  induction count generalizing addr Q with
  | zero => simpa [printCells, reading, cells] using h [] rfl
  | succ count ih =>
    intro v
    apply ih
    intro vs length
    have cons := h (v :: vs) (congrArg (· + 1) length)
    simpa [reading, cells, String.append_assoc] using cons

theorem rows_succ (count : Nat) (addr : Addr) {row : List Byte} (length : row.length = 16)
    (rest : List Byte) : rows (count + 1) addr (row ++ rest) =
      rowLabel addr ++ cells row ++ "\n" ++ rows count (addr + 16) rest := by
  rw [rows, List.take_left' length, List.drop_left' length]

theorem utters_printRows (count : Nat) {addr : Addr}
    (h : ∀ vs : List Byte, vs.length = 16 * count →
      next.Utters fun as said => Q (reading addr vs ++ as) (rows count addr vs ++ said)) :
    (printRows self next count addr).Utters Q := by
  induction count generalizing addr Q with
  | zero => simpa [printRows, reading, rows] using h [] rfl
  | succ count ih =>
    apply utters_printCells
    intro row ofRow
    apply ih
    intro rest ofRest
    have all := h (row ++ rest) (by rw [List.length_append, ofRow, ofRest]; omega)
    have sixteen : UInt16.ofNat 16 = 16 := rfl
    rw [reading_append, ofRow, sixteen, rows_succ count addr ofRow] at all
    simpa only [String.append_assoc, List.append_assoc] using all

/-- A report is read and printed as a whole. -/
theorem utters_print (v : View) (zeroPage : Bool)
    (h : ∀ page : List Byte, page.length = 256 → next.Utters fun as said =>
      Q ((if zeroPage then reading 0 page else []) ++ as)
        (text v (if zeroPage then some page else none) ++ said)) :
    (print self v zeroPage next).Utters Q := by
  cases zeroPage with
  | false =>
    have alone := h (List.replicate 256 0) (List.length_replicate ..)
    simp only [text_none, Bool.false_eq_true, if_false] at alone
    exact alone
  | true =>
    apply utters_printRows
    intro page length
    have dumped := h page length
    simpa only [text_some, String.append_assoc, if_true] using dumped

end Report

namespace Reporter

/-- The reporter behind an instruction that it is told of: a report is delivered and a line of input
taken, if the sink has room. -/
def next (o : Reporter) : Reporter :=
  match o.sink.room with
  | some 0 => o
  | room =>
    { o with
      sink := { o.sink with room := room.map (· - 1) }
      input := o.input.map List.tail }

/-- Whether the reporter asks for a stop: its report cannot be delivered, or no line comes. -/
def asks (o : Reporter) : Bool := o.sink.room == some 0 || o.input == some []

/-- Whether the report is printed, though it may not be delivered. -/
def prints (o : Reporter) : Bool := o.sink.room != some 0 || o.sink.atFlush

def report (o : Reporter) (view : View) (page : List Byte) : String :=
  if o.prints then Report.text view (if o.zeroPage then some page else none) else ""

def reads (o : Reporter) (page : List Byte) : List Access :=
  if o.prints && o.zeroPage then reading 0 page else []

theorem utters_wait (o : Reporter) (Q : List Access → String → Reporter → Control → Prop) :
    o.wait.Utters Q ↔
      Q [] "" { o with input := o.input.map List.tail } (.askIf (o.input == some [])) := by
  obtain ⟨zeroPage, sink, _ | _ | ⟨line, lines⟩, delay⟩ := o
  · by_cases pauses : delay = 0
    · simp only [wait, pauses, if_true]
      exact Iff.rfl
    · simp only [wait, pauses, if_false]
      exact Iff.rfl
  · exact Iff.rfl
  · exact Iff.rfl

theorem utters_printed {o : Reporter} {rest : Probe Reporter} (hp : o.prints = true) (view : View)
    (h : ∀ Q : List Access → String → Reporter → Control → Prop,
      Q [] "" o.next (.askIf o.asks) → rest.Utters Q) :
    (Report.print o view o.zeroPage rest).Utters fun as said self control =>
      self = o.next ∧ control = .askIf o.asks ∧ ∃ page : List Byte, page.length = 256 ∧
        as = o.reads page ∧ said = o.report view page := by
  apply Report.utters_print
  intro page length
  apply h
  refine ⟨rfl, rfl, page, length, ?_, ?_⟩
  · rw [List.append_nil, reads, hp, Bool.true_and]
  · rw [String.append_empty, report, if_pos hp]

theorem utters (o : Reporter) (view : View) (stop : Bool) :
    (Observer.notify view stop o).Utters fun as said self control =>
      self = o.next ∧ control = .askIf o.asks ∧ ∃ page : List Byte, page.length = 256 ∧
        as = o.reads page ∧ said = o.report view page := by
  obtain ⟨zeroPage, ⟨room, atFlush⟩, input, delay⟩ := o
  rcases room with _ | _ | room
  · exact utters_printed rfl view fun Q => (utters_wait _ Q).2
  · cases atFlush with
    | false => exact ⟨rfl, rfl, List.replicate 256 0, List.length_replicate .., rfl, rfl⟩
    | true => exact utters_printed rfl view fun Q holds => holds
  · exact utters_printed rfl view fun Q =>
      (utters_wait ⟨zeroPage, ⟨some room, atFlush⟩, input, delay⟩ Q).2

end Reporter

namespace Standard

/-- Limits, throttles and reporters, which stop a run by what they count. -/
def Counts : Standard → Prop
  | .limit _ | .throttle _ | .reporter _ => True
  | .recorder _ | .breakpoint _ => False

def next : Standard → Standard
  | .limit o => .limit { o with seen := o.seen + 1 }
  | .reporter o => .reporter o.next
  | o => o

def asks : Standard → Bool
  | .limit o => decide (o.limit ≤ o.seen + 1)
  | .reporter o => o.asks
  | _ => false

def report (view : View) (page : List Byte) : Standard → String
  | .reporter o => o.report view page
  | _ => ""

def reads (page : List Byte) : Standard → List Access
  | .reporter o => o.reads page
  | _ => []

theorem utters {o : Standard} (ho : o.Counts) (view : View) (stop : Bool) :
    (Observer.notify view stop o).Utters fun as said self control =>
      self = o.next ∧ control = .askIf o.asks ∧ ∃ page : List Byte, page.length = 256 ∧
        as = o.reads page ∧ said = o.report view page := by
  have blank : ∃ page : List Byte, page.length = 256 ∧ ([] : List Access) = [] ∧ "" = "" :=
    ⟨List.replicate 256 0, List.length_replicate .., rfl, rfl⟩
  cases o with
  | limit o =>
    apply (Probe.utters_map _ _ _).2
    by_cases reached : o.limit ≤ o.seen + 1
    · simp only [Observer.notify, reached, if_true]
      exact ⟨rfl, by rw [asks, decide_eq_true reached]; rfl, blank⟩
    · simp only [Observer.notify, reached, if_false]
      exact ⟨rfl, by rw [asks, decide_eq_false reached]; rfl, blank⟩
  | throttle o =>
    apply (Probe.utters_map _ _ _).2
    by_cases idle : o.delay = 0
    · simp only [Observer.notify, idle, if_true]
      exact ⟨rfl, rfl, blank⟩
    · simp only [Observer.notify, idle, if_false]
      exact ⟨rfl, rfl, blank⟩
  | reporter o =>
    apply (Probe.utters_map _ _ _).2
    refine (o.utters view stop).mono fun as said self control told => ?_
    obtain ⟨rfl, rfl, page⟩ := told
    exact ⟨rfl, rfl, page⟩
  | recorder _ | breakpoint _ => exact ho.elim

theorem Counts.next {o : Standard} (h : o.Counts) : o.next.Counts := by
  cases o with
  | limit _ | throttle _ | reporter _ => exact trivial
  | recorder _ | breakpoint _ => exact h.elim

theorem keeps_counts : Observer.Keeps Counts := by
  intro o ho view stop
  apply (utters ho view stop).safe
  rintro _ _ _ _ ⟨rfl, -⟩
  exact ho.next

theorem Counts.neverFaults {o : Standard} (h : o.Counts) : Observer.NeverFaults o :=
  ⟨Counts, keeps_counts, h⟩

end Standard

theorem Micro.Ensures.silent {σ α β : Type} [Bus β] {p : Micro σ α} {s : σ}
    (h : p.Ensures s fun es _ => Silent (notes es)) (b : β) : Silent (p.on s b).notes := by
  obtain ⟨o, b', quiet, -, -, ns⟩ := h.on b
  rw [ns]
  exact quiet

namespace Cpu

theorem Performs.silent {c c' : Cpu} {i : Instruction} {target : Option Addr} {op : Operation}
    {es : List Event} (h : Performs i target c op es c') : Silent (notes es) := by
  cases h <;> simp

variable (c : Cpu)

theorem instruction_silent : instruction.Ensures c fun es _ => Silent (notes es) := by
  refine (instruction_ensures c).mono fun es o course => ?_
  cases o with
  | cut _ _ => simp [course.notes_of_cut]
  | done _ _ =>
    cases course with
    | completed _ _ hp => simpa using hp.silent

theorem service_silent : service.Ensures c fun es _ => Silent (notes es) := by
  unfold service enter
  simp only [Micro.ensures_bind, Micro.ensures_get, Finish.then_done]
  cases hp : c.pending with
  | none => simp
  | some kind =>
    simp [handler, ensures_save]

theorem settle_silent : settle.Ensures c fun es _ => Silent (notes es) := by
  have behind (c' : Cpu) {es : List Event} (h : Silent (notes es)) :
      service.Ensures c' fun fs _ => Silent (notes (es ++ fs)) := by
    refine (service_silent c').mono fun fs _ quiet => ?_
    rw [notes_append, silent_append]
    exact ⟨h, quiet⟩
  unfold settle
  simp only [Micro.ensures_bind, Micro.ensures_poll, Micro.ensures_ite, ensures_request,
    Finish.then_done]
  refine ⟨by simp, fun line => ?_⟩
  cases line with
  | false => exact behind c (by simp)
  | true =>
    cases hp : c.pending with
    | none => exact behind (c.latch (some .irq)) (by simp)
    | some kind => exact behind c (by simp)

end Cpu

section Telling

variable {β : Type} [Bus β]

/-- What a notification that is answered does, on any bus: `Q` says what the observer utters. -/
theorem Telling.uttered {ω : Type} [Observer ω] {t : Telling β ω}
    {Q : List Access → String → ω → Control → Prop} (ha : t.Answered)
    (h : (Observer.notify t.view t.stopSeen t.observer).Utters Q) : ∃ as said,
      Q as said t.left t.control ∧ Serves t.bus as t.ending.bus ∧
      ∀ sel, printedBy sel t.ending.notes = if sel t.position then said else "" := by
  obtain ⟨-, -, ⟨looks, -⟩, -⟩ := (Probe.activity_ensures t.position id
    (Observer.notify t.view t.stopSeen t.observer)).on t.bus
  obtain ⟨o, b, utters, answered, ended, ns⟩ := (h.activity_ensures t.position id).on t.bus
  change Finish.Ended b o t.ending.outcome t.ending.state t.ending.bus at ended
  change t.ending.notes = _ at ns
  rw [ha] at ended
  generalize t.ending.state = s, t.ending.bus = b' at ended ⊢
  cases ended
  obtain ⟨said, holds, prints⟩ := utters
  refine ⟨_, said, holds, answered.serves looks.2, fun sel => ?_⟩
  rw [ns, prints]

theorem Telling.utters {t : Telling β Standard} (ha : t.Answered) (ho : t.observer.Counts) :
    t.left = t.observer.next ∧ t.control = .askIf t.observer.asks ∧ ∃ page : List Byte,
      page.length = 256 ∧ Serves t.bus (t.observer.reads page) t.ending.bus ∧
      ∀ sel, printedBy sel t.ending.notes =
        if sel t.position then t.observer.report t.view page else "" := by
  obtain ⟨as, said, ⟨left, control, page, length, rfl, rfl⟩, served, prints⟩ :=
    uttered ha (Standard.utters ho t.view t.stopSeen)
  exact ⟨left, control, page, length, served, prints⟩

theorem Standard.told_of_not_reporter {o : Standard} (ho : ∀ r, o ≠ .reporter r) (view : View)
    (stop : Bool) (position : Nat) (b : β) :
    let e := (Observer.told view stop position).on o b
    e.state = o.next ∧ Silent e.notes := by
  unfold Observer.told Micro.on
  cases o with
  | limit o =>
    by_cases reached : o.limit ≤ o.seen + 1 <;>
      simp [Observer.notify, reached, Probe.map, Probe.activity, Activity.on, next]
  | throttle o =>
    by_cases idle : o.delay = 0 <;>
      simp [Observer.notify, idle, Probe.map, Probe.activity, Activity.on, next, Silent,
        Note.isPrinted]
  | recorder o =>
    simp [Observer.notify, Probe.map, Probe.activity, Activity.on, next, Silent, Note.isPrinted]
  | breakpoint o =>
    by_cases here : o.quantity.value view = o.value <;> cases hf : o.failure <;>
      simp [Observer.notify, here, hf, Probe.map, Probe.activity, Activity.on, next]
  | reporter r => exact absurd rfl (ho r)

theorem Telling.left_eq {t : Telling β Standard} (ha : t.Answered) : t.left = t.observer.next := by
  by_cases reports : ∃ r, t.observer = .reporter r
  · obtain ⟨r, hr⟩ := reports
    have counts : t.observer.Counts := by
      rw [hr]
      trivial
    exact (utters ha counts).1
  · exact (Standard.told_of_not_reporter (not_exists.1 reports) t.view t.stopSeen t.position t.bus).1

theorem Telling.unheard {t : Telling β Standard} {sel : Nat → Bool}
    (other : sel t.position = true → ∀ r, t.observer ≠ .reporter r) :
    printedBy sel t.ending.notes = "" := by
  cases listened : sel t.position with
  | true =>
    have silent := Standard.told_of_not_reporter (other listened) t.view t.stopSeen t.position t.bus
    exact silent.2.printedBy sel
  | false => exact Probe.printedBy_activity listened _ _ t.bus

end Telling

end Mos6502
