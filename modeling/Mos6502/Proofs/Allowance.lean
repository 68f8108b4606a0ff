import Mathlib.Data.List.Forall2
import Mos6502.Proofs.Noninterference
import Mos6502.Proofs.Notification
import Mos6502.Proofs.Reporting
import Mos6502.Proofs.RunAgreement

namespace Mos6502

namespace Standard

/-- How many more instructions the observer lets through, one number for each reason that it can have to
stop: a limit that is used up and a full sink let one through, since observers come behind the
instruction. -/
def allowances : Standard → List Nat
  | .limit o => [max 1 (o.limit - o.seen)]
  | .reporter o =>
    (o.sink.room.map (· + 1)).toList ++ (o.input.map fun lines => lines.length + 1).toList
  | _ => []

theorem pos_of_mem_allowances {o : Standard} {n : Nat} (h : n ∈ o.allowances) : 1 ≤ n := by
  cases o with
  | limit o =>
    obtain rfl := List.mem_singleton.1 h
    exact Nat.le_max_left ..
  | reporter o =>
    obtain ⟨zeroPage, ⟨room, atFlush⟩, input, delay⟩ := o
    cases room <;> cases input <;> simp [allowances] at h <;> omega
  | throttle _ | recorder _ | breakpoint _ => cases h

theorem asks_iff {o : Standard} : o.asks = true ↔ 1 ∈ o.allowances := by
  cases o with
  | limit o =>
    simp only [asks, allowances, decide_eq_true_eq, List.mem_singleton]
    omega
  | reporter o =>
    obtain ⟨zeroPage, ⟨room, atFlush⟩, input, delay⟩ := o
    rcases room with _ | _ | room <;> rcases input with _ | _ | ⟨line, lines⟩ <;>
      simp [asks, Reporter.asks, allowances]
  | throttle _ | recorder _ | breakpoint _ => simp [asks, allowances]

theorem allowances_next {o : Standard} (h : o.asks = false) :
    o.next.allowances = o.allowances.map (· - 1) := by
  cases o with
  | limit o =>
    have more : o.seen + 1 < o.limit := by simpa [asks] using h
    simp only [next, allowances, List.map_cons, List.map_nil, List.cons.injEq, and_true]
    omega
  | reporter o =>
    obtain ⟨zeroPage, ⟨room, atFlush⟩, input, delay⟩ := o
    rcases room with _ | _ | room <;> rcases input with _ | _ | ⟨line, lines⟩ <;>
      simp [asks, Reporter.asks, next, Reporter.next, allowances] at h ⊢
  | throttle _ | recorder _ | breakpoint _ => rfl

theorem asks_next {o : Standard} (h : o.asks = true) : o.next.asks = true := by
  cases o with
  | limit o =>
    have reached : o.limit ≤ o.seen + 1 := of_decide_eq_true h
    exact decide_eq_true (Nat.le_succ_of_le reached)
  | reporter o =>
    obtain ⟨zeroPage, ⟨room, atFlush⟩, input, delay⟩ := o
    rcases room with _ | _ | room <;> rcases input with _ | _ | ⟨line, lines⟩ <;>
      simp [asks, Reporter.asks, next, Reporter.next] at h ⊢
  | throttle _ | recorder _ | breakpoint _ => cases h

end Standard

/-- How many more instructions some observers let through together, if any of them counts. -/
def allowance (os : List Standard) : Option Nat := (os.flatMap Standard.allowances).min?

theorem pos_of_allowance {os : List Standard} {n : Nat} (h : allowance os = some n) : 1 ≤ n := by
  obtain ⟨o, -, member⟩ := List.mem_flatMap.1 (List.min?_mem h)
  exact Standard.pos_of_mem_allowances member

theorem any_asks_iff {os : List Standard} : os.any Standard.asks = true ↔ allowance os = some 1 := by
  rw [List.any_eq_true, allowance, List.min?_eq_some_iff, List.mem_flatMap]
  simp only [Standard.asks_iff]
  refine ⟨fun h => ⟨h, fun n member => ?_⟩, And.left⟩
  obtain ⟨o, -, member⟩ := List.mem_flatMap.1 member
  exact Standard.pos_of_mem_allowances member

theorem allowance_next {os : List Standard} (h : os.any Standard.asks = false) :
    allowance (os.map Standard.next) = (allowance os).map (· - 1) := by
  have lessened : (os.map Standard.next).flatMap Standard.allowances =
      (os.flatMap Standard.allowances).map (· - 1) := by
    rw [List.flatMap_map, List.map_flatMap]
    apply List.flatMap_congr
    intro o member
    exact Standard.allowances_next (by simpa using List.any_eq_false.1 h o member)
  rw [allowance, allowance, lessened]
  cases least : (os.flatMap Standard.allowances).min? with
  | none =>
    rw [List.min?_eq_none_iff] at least
    rw [least]
    rfl
  | some n =>
    obtain ⟨member, le⟩ := List.min?_eq_some_iff.1 least
    rw [Option.map_some, List.min?_eq_some_iff]
    refine ⟨List.mem_map_of_mem member, ?_⟩
    intro _ lessened
    obtain ⟨n', member', rfl⟩ := List.mem_map.1 lessened
    exact Nat.sub_le_sub_right (le n' member') 1

theorem any_asks_next {os : List Standard} (h : os.any Standard.asks = true) :
    (os.map Standard.next).any Standard.asks = true := by
  obtain ⟨o, member, asks⟩ := List.any_eq_true.1 h
  exact List.any_eq_true.2 ⟨_, List.mem_map_of_mem member, Standard.asks_next asks⟩

theorem allowance_next_congr {os os' : List Standard} (h : allowance os' = allowance os) :
    allowance (os'.map Standard.next) = allowance (os.map Standard.next) := by
  cases asked : os.any Standard.asks with
  | true =>
    have asked' : os'.any Standard.asks = true := by
      rw [any_asks_iff, h]
      exact any_asks_iff.1 asked
    rw [any_asks_iff.1 (any_asks_next asked), any_asks_iff.1 (any_asks_next asked')]
  | false =>
    have asked' : os'.any Standard.asks = false := by
      rw [← asked, Bool.eq_iff_iff, any_asks_iff, any_asks_iff, h]
    rw [allowance_next asked, allowance_next asked', h]

def Standard.later : (n : Nat) → Standard → Standard
  | 0, o => o
  | n + 1, o => o.next.later n

namespace Standard

def advanced (n : Nat) : Standard → Standard
  | .limit o => .limit { o with seen := o.seen + n }
  | .reporter o => .reporter { o with sink := { o.sink with room := o.sink.room.map (· - n) } }
  | o => o

/-- Limits, and reporters whose sink fails at some time. -/
def Ends : Standard → Prop
  | .limit _ => True
  | .reporter o => o.sink.room.isSome
  | .throttle _ | .recorder _ | .breakpoint _ => False

variable {o : Standard}

theorem Routine.counts (h : o.Routine) : o.Counts := by
  cases o with
  | limit _ | throttle _ | reporter _ => exact trivial
  | recorder _ | breakpoint _ => exact h.elim

theorem counts_of_routine {os : List Standard} (h : ∀ o ∈ os, o.Routine) : ∀ o ∈ os, o.Counts :=
  fun o member => (h o member).counts

theorem Routine.next (h : o.Routine) : o.next = o.advanced 1 ∧ o.next.Routine := by
  cases o with
  | limit _ | throttle _ => exact ⟨rfl, trivial⟩
  | reporter o =>
    obtain ⟨zeroPage, ⟨_ | _ | room, atFlush⟩, input, delay⟩ := o <;> cases h <;> exact ⟨rfl, rfl⟩
  | recorder _ | breakpoint _ => exact h.elim

theorem Routine.advanced (h : o.Routine) (n : Nat) : (o.advanced n).Routine := by
  cases o with
  | limit _ | throttle _ => exact trivial
  | reporter o => exact h
  | recorder _ | breakpoint _ => exact h.elim

theorem advanced_zero (o : Standard) : o.advanced 0 = o := by
  rcases o with _ | _ | ⟨zeroPage, ⟨_ | room, atFlush⟩, input, delay⟩ | _ | _ <;> rfl

theorem advanced_add (first n : Nat) (o : Standard) :
    (o.advanced first).advanced n = o.advanced (n + first) := by
  rcases o with o | _ | ⟨zeroPage, ⟨_ | room, atFlush⟩, input, delay⟩ | _ | _ <;>
    simp [advanced] <;> omega

theorem Routine.later (h : o.Routine) (n : Nat) : o.later n = o.advanced n := by
  induction n generalizing o with
  | zero => exact (advanced_zero o).symm
  | succ n ih => rw [Standard.later, ih h.next.2, h.next.1, advanced_add]

theorem Ends.allowances (h : o.Ends) : o.allowances ≠ [] := by
  rcases o with o | _ | ⟨zeroPage, ⟨_ | room, atFlush⟩, input, delay⟩ | _ | _ <;>
    simp_all [Ends, Standard.allowances]

end Standard

theorem exists_allowance {os : List Standard} (h : ∃ o ∈ os, o.Ends) : ∃ n, allowance os = some n := by
  obtain ⟨o, member, ends⟩ := h
  rw [← Option.isSome_iff_exists, allowance, List.isSome_min?_iff]
  intro none
  exact ends.allowances (List.flatMap_eq_nil_iff.1 none o member)

/-- A limit that is used up lets one more instruction through. -/
theorem allowance_of_usedUp {os : List Standard} {l : Limit} (member : .limit l ∈ os)
    (used : l.limit ≤ l.seen) : allowance os = some 1 := by
  rw [← any_asks_iff, List.any_eq_true]
  refine ⟨_, member, ?_⟩
  exact decide_eq_true (Nat.le_succ_of_le used)

/-- Of the positions that `sel` selects, only `p` holds a reporter, and this is `r`. -/
structure OnlyReporter (sel : Nat → Bool) (p : Nat) (r : Reporter) (os : List Standard) : Prop where
  found : os[p]? = some (.reporter r)
  selected : sel p = true
  alone : ∀ q r', q ≠ p → sel q = true → os[q]? ≠ some (.reporter r')

theorem OnlyReporter.of_found {p : Nat} {r : Reporter} {os : List Standard}
    (found : os[p]? = some (.reporter r)) : OnlyReporter (· == p) p r os where
  found := found
  selected := beq_self_eq_true p
  alone := fun _ _ hq selected => absurd (eq_of_beq selected) hq

theorem OnlyReporter.next {sel : Nat → Bool} {p : Nat} {r : Reporter} {os : List Standard}
    (h : OnlyReporter sel p r os) : OnlyReporter sel p r.next (os.map Standard.next) where
  found := by
    rw [List.getElem?_map, h.found]
    rfl
  selected := h.selected
  alone := by
    intro q r' hq hs found
    rw [List.getElem?_map, Option.map_eq_some_iff] at found
    obtain ⟨o, ho, becomes⟩ := found
    cases o with
    | reporter o => exact h.alone q o hq hs ho
    | limit _ | throttle _ | recorder _ | breakpoint _ => cases becomes

namespace Reporter

def Accepts (n : Nat) (r : Reporter) : Prop := ∀ room, r.sink.room = some room → n ≤ room

variable {r : Reporter}

theorem Accepts.room_ne {n : Nat} (h : r.Accepts (n + 1)) : r.sink.room ≠ some 0 := by
  intro full
  exact absurd (h 0 full) (Nat.not_succ_le_zero n)

theorem Accepts.next {n : Nat} (h : r.Accepts (n + 1)) : r.next.Accepts n := by
  obtain ⟨zeroPage, ⟨_ | _ | room, atFlush⟩, input, delay⟩ := r
  · exact fun _ none => nomatch none
  · exact absurd rfl h.room_ne
  · rintro _ ⟨⟩
    exact Nat.le_of_succ_le_succ (h (room + 1) rfl)

theorem zeroPage_next (r : Reporter) : r.next.zeroPage = r.zeroPage := by
  obtain ⟨zeroPage, ⟨_ | _ | room, atFlush⟩, input, delay⟩ := r <;> rfl

theorem atFlush_next (r : Reporter) : r.next.sink.atFlush = r.sink.atFlush := by
  obtain ⟨zeroPage, ⟨_ | _ | room, atFlush⟩, input, delay⟩ := r <;> rfl

/-- The next `n` reports are printed: there is room for them, or the sink takes what is written and
only fails to deliver it. -/
def PrintsNext (n : Nat) (r : Reporter) : Prop := r.sink.atFlush = true ∨ r.Accepts n

theorem PrintsNext.prints {n : Nat} (h : r.PrintsNext (n + 1)) : r.prints = true := by
  rcases h with atFlush | accepts
  · simp [Reporter.prints, atFlush]
  · simp [Reporter.prints, accepts.room_ne]

theorem PrintsNext.next {n : Nat} (h : r.PrintsNext (n + 1)) : r.next.PrintsNext n := by
  rcases h with atFlush | accepts
  · exact .inl (r.atFlush_next.trans atFlush)
  · exact .inr accepts.next

end Reporter

namespace Machine

section Output

variable {β ω : Type}

/-- What the observers at the positions that `sel` selects have printed so far. -/
def output (sel : Nat → Bool) (m : Machine β ω) : String := printedBy sel m.journal.toList

theorem output_log (sel : Nat → Bool) (m : Machine β ω) (line : LogLine) :
    (m.log line).output sel = m.output sel := by
  unfold Machine.log note
  split
  · unfold output
    rw [Array.toList_push, printedBy_append]
    exact String.append_empty
  · rfl

end Output

variable {β : Type} [Bus β]

theorem output_performCpu {ω α : Type} {p : Micro Cpu α} {m : Machine β ω}
    (h : p.Ensures m.cpu fun es _ => Silent (notes es)) (sel : Nat → Bool) :
    (m.performCpu p).2.output sel = m.output sel := by
  rw [performCpu_eq, output, toList_foldl_push, printedBy_append, printedBy_kept,
    (h.silent m.bus).printedBy, String.append_empty]
  rfl

theorem Notifies.output {ω : Type} [Observer ω] {m m' : Machine β ω} {view : View}
    {ts : List (Telling β ω)} (h : m.Notifies view ts m') (sel : Nat → Bool) :
    m'.output sel = m.output sel ++ printedBy sel (ts.flatMap fun t => t.ending.notes) := by
  have instruction : Silent m.instruct.notes := m.cpu.instruction_silent.silent m.bus
  have interrupt := m.instruct.state.settle_silent.silent (Telling.busAfter m.instruct.bus ts)
  unfold Machine.output
  rw [h.journal, printedBy_append, printedBy_kept, printedBy_append, printedBy_append,
    instruction.printedBy, interrupt.printedBy, String.empty_append, String.append_empty]

/-- `text` is the whole report of the instruction that `m` comes to. If it shows page zero, it does so as
the instruction has left it, on a bus that holds bytes. -/
def Reported (zeroPage : Bool) (m : Machine β Standard) (text : String) : Prop :=
  ∃ view page, m.instruct.outcome = .ok view ∧ page.length = 256 ∧
    (zeroPage = true → ∀ cell, Bus.Holds cell → page = bytesAt (cell m.instruct.bus) 0 256) ∧
    text = Report.text view (if zeroPage then some page else none)

section Step

variable {m m' : Machine β Standard} {view : View} {ts : List (Telling β Standard)}

theorem Notifies.unheard (h : m.Notifies view ts m') {sel : Nat → Bool} {q : Nat}
    {t : Telling β Standard} (ht : ts[q]? = some t)
    (other : sel q = true → ∀ r, m.observers[q]? ≠ some (.reporter r)) :
    printedBy sel t.ending.notes = "" := by
  obtain ⟨position, observer⟩ := h.observed ht
  apply Telling.unheard
  rw [position]
  intro listened r reporter
  rw [reporter] at observer
  exact other listened r observer

theorem observers_of_step (hs : m.step = (.ok (), m')) :
    m'.observers = m.observers.map Standard.next := by
  obtain ⟨view, ts, -, notifies⟩ := notifies_of_step hs
  rw [notifies.left, ← notifies.observers, List.map_map]
  exact List.map_congr_left fun t member => Telling.left_eq (notifies.answered t member)

theorem step_counts (ho : ∀ o ∈ m.observers, o.Counts) (hs : m.step = (.ok (), m')) :
    m'.observers = m.observers.map Standard.next ∧
      m'.stop = (m.stop || m.observers.any Standard.asks) := by
  refine ⟨observers_of_step hs, ?_⟩
  obtain ⟨view, ts, -, notifies⟩ := notifies_of_step hs
  have asks : ts.map Telling.control =
      (ts.map Telling.observer).map fun o => .askIf o.asks := by
    rw [List.map_map]
    refine List.map_congr_left fun t member => ?_
    have counts : t.observer.Counts := by
      apply ho
      rw [← notifies.observers]
      exact List.mem_map_of_mem member
    exact (Telling.utters (notifies.answered t member) counts).2.1
  rw [notifies.stop, Telling.stopAfter, asks, notifies.observers, Control.applyAll_askIf, Bool.false_or]

theorem counts_of_step (ho : ∀ o ∈ m.observers, o.Counts) (hs : m.step = (.ok (), m')) :
    (∀ o ∈ m'.observers, o.Counts) ∧ m'.observers = m.observers.map Standard.next := by
  have observers := observers_of_step hs
  refine ⟨?_, observers⟩
  rw [observers, List.forall_mem_map]
  exact fun o member => (ho o member).next

theorem step_reports (hs : m.step = (.ok (), m')) {sel : Nat → Bool} {p : Nat} {r : Reporter}
    (hp : OnlyReporter sel p r m.observers) (prints : r.prints = true) :
    ∃ text, m.Reported r.zeroPage text ∧ m'.output sel = m.output sel ++ text := by
  obtain ⟨view, ts, hi, notifies⟩ := notifies_of_step hs
  obtain ⟨t, ht, reporter⟩ : ∃ t, ts[p]? = some t ∧ t.observer = .reporter r := by
    have found := hp.found
    rw [← notifies.observers, List.getElem?_map, Option.map_eq_some_iff] at found
    exact found
  have others (q : Nat) (t' : Telling β Standard) (hq : q ≠ p) (ht' : ts[q]? = some t') :
      printedBy sel t'.ending.notes = "" :=
    notifies.unheard ht' fun listened r' => hp.alone q r' hq listened
  -- so what is heard is what this one prints
  have member := List.mem_of_getElem? ht
  have counts : t.observer.Counts := by
    rw [reporter]
    trivial
  obtain ⟨-, -, page, length, served, said⟩ :=
    Telling.utters (notifies.answered t member) counts
  refine ⟨r.report view page, ⟨view, page, hi, length, ?_, ?_⟩, ?_⟩
  · intro dumps cell holds
    have reads : t.observer.reads page = reading 0 page := by
      rw [reporter]
      simp [Standard.reads, Reporter.reads, prints, dumps]
    rw [reads] at served
    have bytes := holds.of_reading served
    rw [length, (notifies.memory t member).2.2 cell holds] at bytes
    exact bytes
  · rw [Reporter.report, if_pos prints]
  · have position := (notifies.observed ht).1
    rw [notifies.output, printedBy_flatMap ht others, said, position, if_pos hp.selected,
      notifies.shown t member, reporter]
    rfl

theorem step_unheard (hs : m.step = (.ok (), m')) (none : ∀ r, .reporter r ∉ m.observers)
    (sel : Nat → Bool) : m'.output sel = m.output sel := by
  obtain ⟨view, ts, -, notifies⟩ := notifies_of_step hs
  rw [notifies.output, printedBy_flatMap_eq_empty, String.append_empty]
  intro t member
  obtain ⟨q, ht⟩ := List.getElem?_of_mem member
  exact notifies.unheard ht fun _ r found => none r (List.mem_of_getElem? found)

end Step

section Run

variable {k : Nat} {m m' : Machine β Standard}

/-- Instructions that complete count for every observer, and the stop comes behind the last one that is
allowed. -/
theorem Advances.counts (adv : Advances k m m') (ho : ∀ o ∈ m.observers, o.Counts)
    (running : m.stop = false) : m'.observers = m.observers.map (Standard.later k) ∧
      (m'.stop = true ↔ allowance m.observers = some k) ∧
      ∀ n, allowance m.observers = some n → k ≤ n := by
  induction adv with
  | refl m =>
    refine ⟨(List.map_id _).symm, ?_, fun n _ => Nat.zero_le n⟩
    rw [running]
    refine ⟨nofun, fun none => ?_⟩
    exact absurd (pos_of_allowance none) (by decide)
  | @step k m m₁ m' hs first rest ih =>
    obtain ⟨observers, stop⟩ := step_counts ho first
    rw [running, Bool.false_or] at stop
    cases asked : m.observers.any Standard.asks with
    | true =>
      -- the instruction asks for a stop, so no other follows
      rw [asked] at stop
      have one := any_asks_iff.1 asked
      cases rest with
      | step unstopped _ _ =>
        rw [stop] at unstopped
        cases unstopped
      | refl =>
        refine ⟨observers, ⟨fun _ => one, fun _ => stop⟩, fun n hn => ?_⟩
        exact pos_of_allowance hn
    | false =>
      rw [asked] at stop
      obtain ⟨later, stops, least⟩ := ih (counts_of_step ho first).1 stop
      rw [observers, allowance_next asked] at stops least
      refine ⟨?_, ?_, fun n hn => ?_⟩
      · rw [later, observers, List.map_map]
        rfl
      · rw [stops, Option.map_eq_some_iff]
        constructor
        · rintro ⟨n, hn, rfl⟩
          rw [hn, Nat.sub_add_cancel (pos_of_allowance hn)]
        · exact fun hk => ⟨k + 1, hk, rfl⟩
      · have bound := least (n - 1) (by rw [hn, Option.map_some])
        have pos := pos_of_allowance hn
        omega

/-- The instructions that begin in the machines `ms` complete one after the other and lead from `m` to
`m'`. Between them anything may be done that prints nothing and leaves the observers alone. -/
inductive Completes : Machine β Standard → List (Machine β Standard) → Machine β Standard → Prop
  | nil (m : Machine β Standard) : Completes m [] m
  | between {m m₁ m' : Machine β Standard} {ms : List (Machine β Standard)}
      (observers : m₁.observers = m.observers) (output : ∀ sel, m₁.output sel = m.output sel)
      (rest : Completes m₁ ms m') : Completes m ms m'
  | step {m m₁ m' : Machine β Standard} {ms : List (Machine β Standard)}
      (completes : m.step = (.ok (), m₁)) (rest : Completes m₁ ms m') : Completes m (m :: ms) m'

theorem Completes.reports {ms : List (Machine β Standard)} (h : Completes m ms m')
    {sel : Nat → Bool} {p : Nat} {r : Reporter} (hp : OnlyReporter sel p r m.observers)
    (prints : r.PrintsNext ms.length) : ∃ texts : List String,
      List.Forall₂ (fun m text => m.Reported r.zeroPage text) ms texts ∧
      m'.output sel = m.output sel ++ String.join texts := by
  induction h generalizing r with
  | nil m => exact ⟨[], .nil, (String.append_empty).symm⟩
  | between observers output _ ih =>
    rw [← observers] at hp
    obtain ⟨texts, reported, adds⟩ := ih hp prints
    rw [output] at adds
    exact ⟨texts, reported, adds⟩
  | step first _ ih =>
    obtain ⟨text, reported, adds⟩ := step_reports first hp prints.prints
    have listened := hp.next
    rw [← observers_of_step first] at listened
    obtain ⟨texts, all, others⟩ := ih listened prints.next
    rw [r.zeroPage_next] at all
    refine ⟨text :: texts, .cons reported all, ?_⟩
    rw [others, adds, String.join_cons, String.append_assoc]

theorem Advances.completes (adv : Advances k m m') :
    Completes m ((List.range k).map m.after) m' := by
  induction adv with
  | refl m => exact .nil m
  | @step k m m₁ m' _ first _ ih =>
    have later : m.after ∘ Nat.succ = m₁.after := by
      funext j
      show m.step.2.after j = m₁.after j
      rw [first]
    rw [List.range_succ_eq_map, List.map_cons, List.map_map, later]
    exact .step first ih

theorem Advances.reports (adv : Advances k m m') {sel : Nat → Bool} {p : Nat} {r : Reporter}
    (hp : OnlyReporter sel p r m.observers) (room : r.Accepts k) :
    ∃ texts : List String, texts.length = k ∧ m'.output sel = m.output sel ++ String.join texts ∧
      ∀ j text, texts[j]? = some text → (m.after j).Reported r.zeroPage text := by
  have prints : r.PrintsNext ((List.range k).map m.after).length := by
    rw [List.length_map, List.length_range]
    exact .inr room
  obtain ⟨texts, reported, output⟩ := adv.completes.reports hp prints
  obtain ⟨length, all⟩ := List.forall₂_iff_get.1 reported
  rw [List.length_map, List.length_range] at length
  refine ⟨texts, length.symm, output, fun j text hj => ?_⟩
  obtain ⟨within, rfl⟩ := List.getElem?_eq_some_iff.1 hj
  have begins := all j (by simpa [length] using within) within
  simpa using begins

/-- A run of `n` instructions has come from `m` to `m'`. Every observer has counted them, and each
reporter whose sink did not fail has added a report of each. -/
structure Counted (n : Nat) (m m' : Machine β Standard) : Prop where
  executed : m'.cpu.executed = m.cpu.executed + n
  observers : m'.observers = m.observers.map (Standard.advanced n)
  reports {p : Nat} {r : Reporter} (hp : m.observers[p]? = some (.reporter r)) (hr : r.Accepts n) :
    ∃ texts : List String, texts.length = n ∧
      m'.output (· == p) = m.output (· == p) ++ String.join texts ∧
      ∀ j text, texts[j]? = some text → (m.after j).Reported r.zeroPage text

theorem Advances.counted (adv : Advances k m m') (ho : ∀ o ∈ m.observers, o.Routine)
    (running : m.stop = false) : Counted k m m' where
  executed := adv.executed
  observers := by
    rw [(adv.counts (Standard.counts_of_routine ho) running).1]
    exact List.map_congr_left fun o member => (ho o member).later k
  reports hp hr := adv.reports (OnlyReporter.of_found hp) hr

theorem Counted.log (h : Counted k m m') (line : LogLine) : Counted k m (m'.log line) := by
  have same := Same.log m' line
  refine ⟨?_, ?_, fun hp hr => ?_⟩
  · rw [same.engine]
    exact h.executed
  · rw [same.engine]
    exact h.observers
  · rw [output_log]
    exact h.reports hp hr

/-- Runs of `m` that meet no error last for `n` instructions, or for fewer if they are for fewer. -/
structure EndsBy (n : Nat) (m : Machine β Standard) : Prop where
  started (addr : Addr) : (∃ e m', (m.startAt addr).resume n = .ended (.error e) m') ∨
    ∃ m', EndsAfter n (m.startAt addr) (.ok ()) m' ∧ Counted n (m.startAt addr) m'
  counted (count : Nat) : (∃ e m', m.runFor count = (.error e, m')) ∨
    ∃ m', m.runFor count = (.ok (min n count), m') ∧
      Counted (min n count) { m with stop := false } m'

section Ending

variable (ho : ∀ o ∈ m.observers, o.Routine) {n : Nat}

include ho

theorem resume_of_allowance (running : m.stop = false) (hn : allowance m.observers = some n) :
    (∃ e m', m.resume n = .ended (.error e) m') ∨
      ∃ m', EndsAfter n m (.ok ()) m' ∧ Counted n m m' := by
  obtain ⟨k, m', adv, stands⟩ := resumed n m
  obtain ⟨-, stops, least⟩ := adv.counts (Standard.counts_of_routine ho) running
  generalize m.resume n = s at stands
  cases stands with
  | running hk hr =>
    -- behind the last instruction that is allowed a stop was asked for
    rw [hk, hr] at stops
    cases stops.2 hn
  | stopped hk hs =>
    obtain rfl : k = n := Option.some.inj ((stops.1 hs).symm.trans hn)
    exact .inr ⟨_, adv.endsAfter_stop hs, (adv.counted ho running).log _⟩
  | failed _ _ _ => exact .inl ⟨_, _, rfl⟩

theorem runFor_of_allowance (hn : allowance m.observers = some n) (count : Nat) :
    (∃ e m', m.runFor count = (.error e, m')) ∨ ∃ m', m.runFor count = (.ok (min n count), m') ∧
      Counted (min n count) { m with stop := false } m' := by
  obtain ⟨k, m', adv, stands⟩ := ran count m
  obtain ⟨-, stops, least⟩ := adv.counts (Standard.counts_of_routine ho) rfl
  generalize m.runFor count = s at stands
  cases stands with
  | completed hk last =>
    have reached : k = min n count := by
      have le := least n hn
      rcases last with rfl | stopped
      · omega
      · have := Option.some.inj (hn.symm.trans (stops.1 stopped))
        omega
    rw [← reached]
    exact .inr ⟨m', rfl, adv.counted ho rfl⟩
  | failed _ _ _ => exact .inl ⟨_, _, rfl⟩

theorem endsBy_of_allowance (hn : allowance m.observers = some n) : m.EndsBy n where
  started addr := by
    have placed := (same_startAt addr m).engine
    have observers : (m.startAt addr).observers = m.observers := by
      rw [placed]
      rfl
    apply resume_of_allowance
    · rw [observers]
      exact ho
    · exact congrArg Engine.stop placed
    · rw [observers, hn]
  counted := runFor_of_allowance ho hn

end Ending

/-- Limits, throttles and reporters together allow as many instructions as the one that allows least.
A run until a stop that meets no error ends behind exactly these, and a run for `count` instructions
behind at most these; every observer counts all of them, and each sink that has not failed holds a
whole report of each. Once the instructions of a limit are used up, every later run has one. -/
theorem runs_end_by_allowance (ho : ∀ o ∈ m.observers, o.Routine) (hp : ∃ o ∈ m.observers, o.Ends) :
    ∃ n, allowance m.observers = some n ∧ m.EndsBy n ∧
      ∀ l k, .limit l ∈ m.observers → l.limit ≤ l.seen + k → ∀ later : Machine β Standard,
        later.observers = m.observers.map (Standard.advanced k) → later.EndsBy 1 := by
  obtain ⟨n, hn⟩ := exists_allowance hp
  refine ⟨n, hn, endsBy_of_allowance ho hn, ?_⟩
  intro l k member used later observers
  apply endsBy_of_allowance
  · rw [observers, List.forall_mem_map]
    exact fun o member => (ho o member).advanced k
  · rw [observers]
    exact allowance_of_usedUp (List.mem_map_of_mem member) used

end Run

/-- `INX`, `DEX` and `INX`, with a limit that has counted one instruction and two reports that can
still be delivered. -/
def tallied : Machine Memory Standard where
  cpu := { regs := { pc := 0x8000 } }
  bus := ((Memory.zero.write 0x8000 0xE8).write 0x8001 0xCA).write 0x8002 0xE8
  observers := [.limit { limit := 5, seen := 1 }, .reporter { sink := { room := some 2 } },
    .throttle ⟨1⟩, .reporter {}]

theorem tallied_ends_by_allowance :
    (∃ m', EndsAfter 3 (tallied.startAt 0x8000) (.ok ()) m' ∧
      m'.observers = [.limit { limit := 5, seen := 4 }, .reporter { sink := { room := some 0 } },
        .throttle ⟨1⟩, .reporter {}] ∧
      ∃ texts : List String, texts.length = 3 ∧ m'.output (· == 3) = String.join texts ∧
        ∀ j text, texts[j]? = some text →
          ((tallied.startAt 0x8000).after j).Reported false text) ∧
    (∃ m', tallied.runFor 2 = (.ok 2, m') ∧ m'.cpu.executed = 2) ∧
    { tallied with observers := tallied.observers.map (Standard.advanced 4) }.EndsBy 1 := by
  have routine : ∀ o ∈ tallied.observers, o.Routine := by
    simp [tallied, Standard.Routine]
  obtain ⟨n, hn, ends, usedUp⟩ := runs_end_by_allowance routine ⟨_, List.mem_cons_self, trivial⟩
  have three : allowance tallied.observers = some 3 := rfl
  obtain rfl : 3 = n := Option.some.inj (three.symm.trans hn)
  refine ⟨?_, ?_, usedUp _ 4 List.mem_cons_self (by decide) _ rfl⟩
  · rcases ends.started 0x8000 with ⟨e, m', failed⟩ | ⟨m', ends, run⟩
    · have verdict : ((tallied.startAt 0x8000).resume 3).verdict? = some (.ok ()) := rfl
      rw [failed] at verdict
      cases verdict
    · obtain ⟨texts, length, output, reported⟩ := run.reports (p := 3) rfl fun _ none => nomatch none
      refine ⟨m', ends, run.observers, texts, length, ?_, reported⟩
      rw [output]
      exact String.empty_append
  · rcases ends.counted 2 with ⟨e, m', failed⟩ | ⟨m', ends, run⟩
    · have verdict : (tallied.runFor 2).1 = .ok 2 := rfl
      rw [failed] at verdict
      cases verdict
    · exact ⟨m', ends, run.executed⟩

end Machine

end Mos6502
