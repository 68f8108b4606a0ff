import Mos6502.Proofs.Pacing
import Mos6502.Proofs.Segments

namespace Mos6502.CommandLine

/-- How many lines there are in a text; behind the last newline there may be one that is not ended. -/
def lineCount (text : List Char) : Nat :=
  text.count '\n' + if text.getLast?.all (· == '\n') then 0 else 1

theorem lineCount_cons (c d : Char) (cs : List Char) :
    lineCount (c :: d :: cs) = lineCount (d :: cs) + if c = '\n' then 1 else 0 := by
  rw [lineCount, lineCount, List.count_cons, List.getLast?_cons_cons]
  simp only [beq_iff_eq]
  omega

/-- Of the line so far only the last character matters. -/
theorem length_go (c : Char) (line cs : List Char) :
    (inputLines.go (c :: line) cs).length = lineCount (c :: cs) := by
  induction cs generalizing c line with
  | nil => by_cases ended : c = '\n' <;> simp [inputLines.go, lineCount, ended]
  | cons d cs ih =>
    rw [lineCount_cons]
    by_cases ended : c = '\n'
    · subst ended
      rw [inputLines.go, List.length_cons, ih, if_pos rfl]
    · have goesOn : inputLines.go (c :: line) (d :: cs) = inputLines.go (d :: c :: line) cs := by
        rw [inputLines.go]
        rintro _ ⟨⟩
        exact ended rfl
      rw [goesOn, ih, if_neg ended, Nat.add_zero]

theorem length_inputLines (text : List Char) : (inputLines text).length = lineCount text := by
  cases text with
  | nil => rfl
  | cons c cs => exact length_go c [] cs

def Config.stepwise (c : Config) : Bool := c.debug.any DebugSettings.step

/-- How many instructions a run with the input `text` can have: at most those of the limit, and when it
waits for lines one more than there are. -/
def allowed (c : Config) (text : List Char) : Option Nat :=
  match c.maxInstructions, c.stepwise with
  | some n, true => some (min n (lineCount text + 1))
  | some n, false => some n
  | none, true => some (lineCount text + 1)
  | none, false => none

theorem printed_eq (ns : List Note) : printed ns = printedBy (fun _ => true) ns := by
  have adds : printed ns = ns.foldl (fun text n => text ++ n.textOf fun _ => true) "" := by
    unfold printed
    congr 1
    funext text n
    cases n with
    | printed _ _ => rfl
    | _ => exact String.append_empty.symm
  rw [adds, printedBy, String.join, List.foldl_map]

section Observers

variable {c : Config}

theorem counts_observers (c : Config) (input : List String) : ∀ o ∈ observers c input, o.Counts := by
  obtain ⟨_, _, _ | n, _ | d, delay, _⟩ := c <;> by_cases idle : delay = 0 <;>
    simp [observers, idle, Standard.Counts]

theorem allowances_observers (positive : ∀ n, c.maxInstructions = some n → 1 ≤ n)
    (input : List String) : (observers c input).flatMap Standard.allowances =
      (if c.stepwise then [input.length + 1] else []) ++ c.maxInstructions.toList := by
  rw [observers, List.flatMap_append]
  congr 1
  · cases hd : c.debug with
    | none => by_cases idle : c.slowDown = 0 <;> simp [idle, Config.stepwise, hd, Standard.allowances]
    | some d =>
      cases hs : d.step <;> simp [Config.stepwise, hd, hs, Standard.allowances]
  · cases hn : c.maxInstructions with
    | none => rfl
    | some n => exact congrArg (fun n => [n]) (Nat.max_eq_right (positive n hn))

/-- Whatever the delay, the observers let a run go on for as long as is allowed. -/
theorem allowance_observers (positive : ∀ n, c.maxInstructions = some n → 1 ≤ n)
    (text : List Char) : allowance (observers c (inputLines text)) = allowed c text := by
  rw [allowance, allowances_observers positive, length_inputLines, allowed]
  cases c.maxInstructions with
  | none => cases c.stepwise <;> rfl
  | some n =>
    cases c.stepwise with
    | false => rfl
    | true => exact congrArg some (Nat.min_comm _ _)

theorem onlyReporter_observers {d : DebugSettings} (hd : c.debug = some d) (input : List String) :
    ∃ r : Reporter, OnlyReporter (fun _ => true) 0 r (observers c input) ∧ r.sink.room = none ∧
      r.zeroPage = d.showZeroPage := by
  rw [observers, hd]
  refine ⟨_, ⟨rfl, rfl, ?_⟩, rfl, rfl⟩
  intro q r first _ found
  obtain ⟨q, rfl⟩ := Nat.exists_eq_succ_of_ne_zero first
  cases hn : c.maxInstructions with
  | none => simp [hn] at found
  | some n => cases q <;> simp [hn] at found

theorem reporter_not_mem_observers (hd : c.debug = none) (input : List String) (r : Reporter) :
    .reporter r ∉ observers c input := by
  rw [observers, hd]
  cases c.maxInstructions <;> by_cases idle : c.slowDown = 0 <;> simp [idle]

end Observers

section Launch

variable {files : Files} {input : List String} {c : Config} {m : Machine Memory Standard}

/-- The run of a configuration has begun: nothing is carried out or printed yet. -/
structure Begun (input : List String) (c : Config) (m : Machine Memory Standard) : Prop where
  observers : m.observers = observers c input
  running : m.stop = false
  fresh : m.cpu.executed = 0
  unprinted : ∀ sel, m.output sel = ""

theorem Begun.counts (h : Begun input c m) : ∀ o ∈ m.observers, o.Counts := by
  rw [h.observers]
  exact counts_observers c input

theorem output_begin (m : Machine Memory Standard) (sel : Nat → Bool) :
    m.begin.output sel = m.output sel := Machine.output_log sel _ _

theorem output_start (m : Machine Memory Standard) (sel : Nat → Bool) :
    m.start.2.output sel = m.output sel := by
  have reset : (m.performCpu Cpu.reset).2.output sel = m.output sel := by
    rw [Machine.performCpu_reset, Machine.output_performCpu (Cpu.service_silent _)]
    rfl
  exact (output_begin _ sel).trans reset

theorem output_logs (lines : List LogLine) (m : Machine Memory Standard) (sel : Nat → Bool) :
    (lines.foldl (fun m line => m.log line) m).output sel = m.output sel := by
  induction lines generalizing m with
  | nil => rfl
  | cons line lines ih => exact (ih (m.log line)).trans (Machine.output_log sel m line)

theorem output_launch (h : launch files input c = .ok m) (sel : Nat → Bool) : m.output sel = "" := by
  rw [launch] at h
  cases loaded : loadSegments files .zero c.segments with
  | error e =>
    rw [loaded] at h
    cases h
  | ok r =>
    obtain ⟨bus, lines⟩ := r
    rw [loaded] at h
    have unprinted := output_logs lines
      { bus, observers := observers c input, logging := c.logLevel } sel
    cases hs : c.start with
    | some addr =>
      rw [hs] at h
      cases h
      exact (output_begin _ sel).trans unprinted
    | none =>
      rw [hs] at h
      cases h
      exact (output_start _ sel).trans unprinted

theorem engine_started (input : List String) (c : Config) (bus : Memory) :
    (started input c bus).observers = observers c input ∧
    (started input c bus).stop = false := by
  unfold started
  generalize hm : ({ bus, observers := observers c input, logging := c.logLevel } :
    Machine Memory Standard) = m
  have same : m.observers = observers c input := by rw [← hm]
  cases c.start with
  | some addr =>
    have begun := (Machine.same_startAt addr m).engine
    rw [begun]
    exact ⟨same, rfl⟩
  | none =>
    have begun : Machine.Same _ m.start.2 := Machine.same_begin (m.performCpu Cpu.reset).2
    rw [begun.engine]
    exact ⟨same, rfl⟩

theorem loaded_of_launch (h : launch files input c = .ok m) : ∃ bus lines,
    loadSegments files .zero c.segments = .ok (bus, lines) ∧
      Machine.Same (started input c bus) m := by
  cases loaded : loadSegments files .zero c.segments with
  | error e =>
    rw [launch_of_error files input c loaded] at h
    cases h
  | ok r =>
    obtain ⟨m', launched, same⟩ := launch_of_ok files input c loaded
    obtain rfl : m' = m := Except.ok.inj (launched.symm.trans h)
    exact ⟨r.1, r.2, rfl, same⟩

theorem begun_of_launch (h : launch files input c = .ok m) : Begun input c m := by
  obtain ⟨bus, lines, -, same⟩ := loaded_of_launch h
  obtain ⟨-, fresh, -⟩ := started_keeps input c bus
  obtain ⟨observers, running⟩ := engine_started input c bus
  refine ⟨?_, ?_, ?_, output_launch h⟩
  · rw [same.engine, observers]
  · rw [same.engine, running]
  · rw [same.engine, fresh]

theorem cpu_started (bus : Memory) (ms : Nat) :
    (started input { c with slowDown := ms } bus).cpu = (started input c bus).cpu := by
  unfold started
  cases c.start with
  | some addr =>
    rw [(Machine.same_startAt addr _).engine, (Machine.same_startAt addr _).engine]
    rfl
  | none =>
    have begun (m : Machine Memory Standard) :
        m.start.2.cpu = { (m.performCpu Cpu.reset).2.cpu with holdPc := false } :=
      congrArg Engine.cpu (Machine.same_begin (m.performCpu Cpu.reset).2).engine
    rw [begun, begun, Machine.performCpu_eq, Machine.performCpu_eq]

theorem Begun.allows {text : List Char} (h : Begun (inputLines text) c m)
    (positive : ∀ n, c.maxInstructions = some n → 1 ≤ n) :
    allowance m.observers = allowed c text := by
  rw [h.observers]
  exact allowance_observers positive text

theorem paced_of_slowDown {text : List Char} (h : launch files (inputLines text) c = .ok m)
    (positive : ∀ n, c.maxInstructions = some n → 1 ≤ n) (ms : Nat) : ∃ m₁,
    launch files (inputLines text) { c with slowDown := ms } = .ok m₁ ∧ Machine.Paced m m₁ := by
  obtain ⟨bus, lines, loaded, same⟩ := loaded_of_launch h
  obtain ⟨m₁, launched₁, same₁⟩ :=
    launch_of_ok files (inputLines text) { c with slowDown := ms } loaded
  have begun := begun_of_launch h
  have begun₁ := begun_of_launch launched₁
  have allows₁ : allowance m₁.observers = allowed c text := begun₁.allows positive
  refine ⟨m₁, launched₁, ?_, ?_, ?_, ?_, begun.counts, begun₁.counts⟩
  · rw [same₁.engine, same.engine, cpu_started]
  · rw [same₁.bus, same.bus, (started_keeps _ _ bus).1, (started_keeps _ _ bus).1]
  · rw [begun.running, begun₁.running]
  · rw [allows₁, begun.allows positive]

namespace Begun

theorem unheard (h : Begun input c m) (hd : c.debug = none) (fuel : Nat) :
    printed (m.resume fuel).machine.journal.toList = "" := by
  have none : ∀ r, .reporter r ∉ m.observers := by
    rw [h.observers]
    exact reporter_not_mem_observers hd input
  rw [printed_eq]
  exact (Machine.resume_unheard h.counts none fuel _).trans (h.unprinted _)

theorem reports (h : Begun input c m) {d : DebugSettings} (hd : c.debug = some d) (fuel : Nat) :
    let left := (m.resume fuel).machine
    ∃ texts : List String, texts.length = left.cpu.executed ∧
      printed left.journal.toList = String.join texts ∧
      ∀ j text, texts[j]? = some text → (m.after j).Reported d.showZeroPage text := by
  obtain ⟨r, only, unfailing, shows⟩ := onlyReporter_observers hd input
  rw [← h.observers] at only
  obtain ⟨texts, executed, output, reported⟩ := Machine.resume_reports h.counts only unfailing fuel
  rw [h.fresh, Nat.zero_add] at executed
  rw [h.unprinted, String.empty_append] at output
  rw [shows] at reported
  refine ⟨texts, executed.symm, ?_, reported⟩
  rw [printed_eq]
  exact output

theorem printed_eq_of_paced {ms : Nat} {m₁ : Machine Memory Standard} (h : Begun input c m)
    (h₁ : Begun input { c with slowDown := ms } m₁) (paced : Machine.Paced m m₁) (fuel : Nat) :
    printed (m₁.resume fuel).machine.journal.toList =
      printed (m.resume fuel).machine.journal.toList := by
  cases hd : c.debug with
  | none => rw [h.unheard hd, h₁.unheard hd]
  | some d =>
    obtain ⟨texts, length, output, reported⟩ := h.reports hd fuel
    obtain ⟨texts₁, length₁, output₁, reported₁⟩ := h₁.reports hd fuel
    -- both runs have completed as many instructions, each from the same state
    have cpu := (Machine.simulation_paced.resume paced fuel).2.cpu
    have same : texts₁.length = texts.length := by rw [length, length₁, cpu]
    have equal : texts₁ = texts := by
      apply List.ext_getElem same
      intro j hj₁ hj
      have there := reported j _ (List.getElem?_eq_getElem hj)
      have here := reported₁ j _ (List.getElem?_eq_getElem hj₁)
      exact there.unique here (paced.after j).cpu (paced.after j).bus
    rw [output, output₁, equal]

end Begun

/-- If all images can be loaded, a run begins. It is allowed as many instructions as the limit and the
lines of input are for, and terminates behind the last of them, or with the error of the first that
fails, which is not counted; where neither limits it, only an error ends it. It prints a whole report of
each instruction that has completed, in order, if any are asked for, and nothing else. A delay changes
neither what becomes of the machine nor what is printed. -/
theorem program_run (text : List Char) (hl : ∀ s ∈ c.segments, s.Loadable files)
    (positive : ∀ n, c.maxInstructions = some n → 1 ≤ n) :
    ∃ m, launch files (inputLines text) c = .ok m ∧
      (∀ n, allowed c text = some n → m.Lasts n) ∧
      (allowed c text = none → ∀ fuel verdict m', m.resume fuel = .ended verdict m' →
        ∃ e, verdict = .error e) ∧
      (∀ fuel, let left := (m.resume fuel).machine
        (c.debug = none → printed left.journal.toList = "") ∧
        ∀ d, c.debug = some d → ∃ texts : List String, texts.length = left.cpu.executed ∧
          printed left.journal.toList = String.join texts ∧
          ∀ j text, texts[j]? = some text → (m.after j).Reported d.showZeroPage text) ∧
      ∀ ms, ∃ m₁, launch files (inputLines text) { c with slowDown := ms } = .ok m₁ ∧
        ∀ fuel, let run := m.resume fuel
          let run₁ := m₁.resume fuel
          run₁.verdict? = run.verdict? ∧ run₁.machine.cpu = run.machine.cpu ∧
            run₁.machine.bus = run.machine.bus ∧ run₁.machine.stop = run.machine.stop ∧
            printed run₁.machine.journal.toList = printed run.machine.journal.toList := by
  obtain ⟨m, -, launched, -⟩ := launch_of_loadable (inputLines text) hl
  have begun := begun_of_launch launched
  have allows := begun.allows positive
  refine ⟨m, launched, ?_, ?_, ?_, ?_⟩
  · intro n hn
    exact Machine.lasts_of_allowance begun.counts begun.running begun.fresh (allows.trans hn)
  · intro none fuel verdict m' ended
    exact Machine.error_of_unlimited begun.counts begun.running (allows.trans none) ended
  · exact fun fuel => ⟨fun hd => begun.unheard hd fuel, fun d hd => begun.reports hd fuel⟩
  · intro ms
    obtain ⟨m₁, launched₁, paced⟩ := paced_of_slowDown launched positive ms
    have begun₁ := begun_of_launch launched₁
    refine ⟨m₁, launched₁, fun fuel => ?_⟩
    obtain ⟨verdict, alike⟩ := Machine.simulation_paced.resume paced fuel
    exact ⟨verdict, alike.cpu, alike.bus, alike.stop, begun.printed_eq_of_paced begun₁ paced fuel⟩

end Launch

/-- `INX`, `DEX`, `INX`, and then what is no instruction. -/
def countingFiles : Files
  | "counting" => some (.regular [0xE8, 0xCA, 0xE8, 0x02])
  | _ => none

/-- A run that reports and waits for lines, and could have as many as nine instructions. -/
def waiting : Config where
  segments := [⟨"counting", 0x0200, none⟩]
  start := some 0x0200
  maxInstructions := some 9
  debug := some { step := true }

def waitingOutput : String :=
  "\nResult of instruction 0xE8 (INX, Implicit)\n" ++
  "Neg: false, Ovr: false, Dec: false, Int: false, Zer: false, Car: false\n" ++
  "PC: 0x0201, SP: 0xFD, A: 0x00, X: 0x01, Y: 0x00\n" ++
  "\nResult of instruction 0xCA (DEX, Implicit)\n" ++
  "Neg: false, Ovr: false, Dec: false, Int: false, Zer: true, Car: false\n" ++
  "PC: 0x0202, SP: 0xFD, A: 0x00, X: 0x00, Y: 0x00\n" ++
  "\nResult of instruction 0xE8 (INX, Implicit)\n" ++
  "Neg: false, Ovr: false, Dec: false, Int: false, Zer: false, Car: false\n" ++
  "PC: 0x0203, SP: 0xFD, A: 0x00, X: 0x01, Y: 0x00\n"

/-- Two lines are enough for three instructions. Without reports there is nothing to wait for, and one
more follows, which fails. -/
theorem waiting_ends : allowed waiting "a\nb".toList = some 3 ∧
    (∃ m m' texts, launch countingFiles (inputLines "a\nb".toList) waiting = .ok m ∧
      m.EndsAfter 3 (.ok ()) m' ∧ m'.cpu.executed = 3 ∧ texts.length = 3 ∧
      printed m'.journal.toList = String.join texts ∧ String.join texts = waitingOutput) ∧
    ∃ m m', launch countingFiles (inputLines []) { waiting with debug := none } = .ok m ∧
      m.EndsAfter 4 (.error (.undocumented 0x02 0x0203)) m' ∧ m'.cpu.executed = 3 := by
  have loadable : ∀ s ∈ waiting.segments, s.Loadable countingFiles := by
    simp only [waiting, List.forall_mem_cons]
    exact ⟨⟨_, rfl, by simp, by decide⟩, by simp⟩
  have positive : ∀ n, waiting.maxInstructions = some n → 1 ≤ n := by
    rintro n ⟨⟩
    decide
  refine ⟨rfl, ?_, ?_⟩
  · obtain ⟨m, launched, lasts, -, prints, -⟩ :=
      program_run "a\nb".toList loadable positive
    have verdicts : (launch countingFiles (inputLines "a\nb".toList) waiting).map
        (fun m => (List.range 4).map fun j => (m.resume j).verdict?) =
          .ok (List.replicate 3 none ++ [some (.ok ())]) := rfl
    have shown : (launch countingFiles (inputLines "a\nb".toList) waiting).map
        (fun m => decide (printed (m.resume 3).machine.journal.toList = waitingOutput)) =
          .ok true := by decide +kernel
    rw [launched] at verdicts shown
    have ends := Machine.endsAfter_of_verdicts (Except.ok.inj verdicts)
    have shown := of_decide_eq_true (Except.ok.inj shown)
    obtain ⟨texts, length, output, -⟩ := (prints 3).2 _ rfl
    cases lasts 3 rfl with
    | completed _ ends' _ executed =>
      obtain ⟨-, -, rfl⟩ := ends.unique ends'
      exact ⟨m, _, texts, launched, ends, executed, length.trans executed, output,
        output.symm.trans shown⟩
    | failed _ _ _ ends' _ _ => cases (ends.unique ends').2.1
  · obtain ⟨m, launched, lasts, -⟩ :=
      program_run (c := { waiting with debug := none }) [] loadable positive
    have verdicts : (launch countingFiles (inputLines []) { waiting with debug := none }).map
        (fun m => (List.range 5).map fun j => (m.resume j).verdict?) =
          .ok (List.replicate 4 none ++ [some (.error (.undocumented 0x02 0x0203))]) := rfl
    rw [launched] at verdicts
    have ends := Machine.endsAfter_of_verdicts (Except.ok.inj verdicts)
    cases lasts 9 rfl with
    | completed _ ends' _ _ => cases (ends.unique ends').2.1
    | failed _ _ _ ends' _ executed =>
      obtain ⟨count, verdict, rfl⟩ := ends.unique ends'
      cases verdict
      exact ⟨m, _, launched, ends, executed.trans (Nat.succ.inj count)⟩

end Mos6502.CommandLine
