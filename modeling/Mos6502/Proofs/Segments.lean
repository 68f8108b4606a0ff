import Mos6502.CommandLine.Run
import Mos6502.Proofs.Loading
import Mos6502.Proofs.Simulation
import Mos6502.Proofs.Step

namespace Mos6502.Machine

section Plain

variable {ω : Type} {m m' : Machine Memory ω}

theorem Same.start (h : Same m m') : Same m.start.2 m'.start.2 := by
  have reset : Same (m.performCpu Cpu.reset).2 (m'.performCpu Cpu.reset).2 := by
    rw [performCpu_eq, performCpu_eq, h.engine, h.bus]
    exact ⟨rfl, rfl⟩
  exact reset.begin

theorem start_keeps (m : Machine Memory ω) : m.start.2.bus = m.bus ∧
    m.start.2.cpu.executed = m.cpu.executed ∧ m.start.2.cpu.regs.pc = m.bus.readWord 0xFFFC := by
  have begun : Same _ m.start.2 := same_begin (m.performCpu Cpu.reset).2
  refine ⟨begun.bus, ?_, ?_⟩
  · rw [begun.engine]
    rfl
  · rw [begun.engine]
    rfl

end Plain

end Mos6502.Machine

namespace Mos6502.CommandLine

namespace Segment

variable (files : Files) (s : Segment)

def size : Nat := match s.last with
  | some last => span s.first last
  | none => (contents (files s.path)).length

def image : List Byte := (contents (files s.path)).take (s.size files)

/-- The byte, if any, that the segment gives to `addr`. -/
def gives (addr : Addr) : Option Byte := placed s.first.toNat (s.image files) addr

/-- The file fills the range that is given, or it has some bytes and they fit. -/
def Loadable : Prop := ∃ bytes, files s.path = some (.regular bytes) ∧ match s.last with
  | some last => s.first ≤ last ∧ last.toNat - s.first.toNat + 1 ≤ bytes.length
  | none => bytes ≠ [] ∧ s.first.toNat + bytes.length ≤ 0x10000

/-- Why the segment cannot be loaded. -/
inductive Unloadable : RunError → Prop
  | reversed {last : Addr} (hl : s.last = some last) (h : last < s.first) :
      Unloadable (.load (.invalidRange s.first last))
  | missing {last : Addr} (hl : s.last = some last) (h : s.first ≤ last)
      (hf : files s.path = none) : Unloadable (.load (.cannotOpen s.path))
  | short {last : Addr} {bytes : List Byte} (hl : s.last = some last) (h : s.first ≤ last)
      (hf : files s.path = some (.regular bytes)) (hs : bytes.length < span s.first last) :
      Unloadable (.load (.shortRead s.path (span s.first last) bytes.length))
  | unknown (hl : s.last = none) (hf : files s.path = none) : Unloadable (.unknownSize s.path)
  | large {bytes : List Byte} (hl : s.last = none) (hf : files s.path = some (.regular bytes))
      (h : 0x10000 < s.first.toNat + bytes.length) :
      Unloadable (.doesNotFit s.path s.first bytes.length)
  | empty (hl : s.last = none) (hf : files s.path = some (.regular [])) :
      Unloadable (.load (.shortRead s.path 1 0))

variable {files : Files} {s : Segment}

theorem Loadable.fills (h : s.Loadable files) :
    (s.image files).length = s.size files ∧ s.first.toNat + s.size files ≤ 0x10000 := by
  obtain ⟨bytes, hf, h⟩ := h
  have read : contents (files s.path) = bytes := by rw [hf]; rfl
  unfold image size
  rw [read, List.length_take]
  cases hl : s.last with
  | none =>
    rw [hl] at h
    exact ⟨Nat.min_self _, h.2⟩
  | some last =>
    rw [hl] at h
    have le : s.first.toNat ≤ last.toNat := h.1
    have enough : span s.first last ≤ bytes.length := by
      unfold span
      omega
    exact ⟨Nat.min_eq_left enough, add_span_le h.1⟩

theorem Loadable.isSome_gives (h : s.Loadable files) (addr : Addr) : (s.gives files addr).isSome ↔
    s.first.toNat ≤ addr.toNat ∧ addr.toNat < s.first.toNat + s.size files := by
  rw [gives, isSome_placed, h.fills.1]

theorem loadable_or_unloadable (regular : files s.path ≠ some .directory) :
    s.Loadable files ∨ ∃ e, s.Unloadable files e := by
  match hf : files s.path, hl : s.last with
  | some .directory, _ => exact absurd hf regular
  | none, none => exact .inr ⟨_, .unknown hl hf⟩
  | none, some last =>
    by_cases reversed : last < s.first
    · exact .inr ⟨_, .reversed hl reversed⟩
    · exact .inr ⟨_, .missing hl (UInt16.not_lt.1 reversed) hf⟩
  | some (.regular bytes), none =>
    by_cases large : 0x10000 < s.first.toNat + bytes.length
    · exact .inr ⟨_, .large hl hf large⟩
    · by_cases none : bytes = []
      · subst none
        exact .inr ⟨_, .empty hl hf⟩
      · refine .inl ⟨bytes, hf, ?_⟩
        rw [hl]
        exact ⟨none, Nat.not_lt.1 large⟩
  | some (.regular bytes), some last =>
    by_cases reversed : last < s.first
    · exact .inr ⟨_, .reversed hl reversed⟩
    · have ordered : s.first ≤ last := UInt16.not_lt.1 reversed
      by_cases short : bytes.length < span s.first last
      · exact .inr ⟨_, .short hl ordered hf short⟩
      · refine .inl ⟨bytes, hf, ?_⟩
        have le : s.first.toNat ≤ last.toNat := ordered
        rw [hl]
        unfold span at short
        refine ⟨ordered, ?_⟩
        omega

end Segment

section Loading

variable {files : Files} {s : Segment} (m : Memory)

theorem lastAddr_of_some {last : Addr} (hl : s.last = some last) : lastAddr files s = .ok last := by
  rw [lastAddr, hl]

theorem lastAddr_of_fits {bytes : List Byte} (hl : s.last = none)
    (hf : files s.path = some (.regular bytes))
    (fits : s.first.toNat + max bytes.length 1 ≤ 0x10000) : ∃ last,
      lastAddr files s = .ok last ∧ s.first ≤ last ∧ span s.first last = max bytes.length 1 := by
  have some : 0 < max bytes.length 1 := by omega
  have within : ¬ 0xFFFF < s.first.toNat + max bytes.length 1 - 1 := by omega
  refine ⟨_, ?_, span_ofNat some fits⟩
  rw [lastAddr, hl, hf]
  exact if_neg within

theorem loadSegment_of_lastAddr {last : Addr} (hl : lastAddr files s = .ok last) :
    loadSegment files m s = (m.loadFile files s.path s.first last).mapError .load := by
  rw [loadSegment, hl]
  rfl

theorem loadSegment_of_error {e : RunError} (hl : lastAddr files s = .error e) :
    loadSegment files m s = .error e := by
  rw [loadSegment, hl]
  rfl

theorem loadSegment_of_le {last : Addr} (hl : lastAddr files s = .ok last) (h : s.first ≤ last) :
    match fileFailure? s.path (span s.first last) (files s.path) with
    | some why => loadSegment files m s = .error (.load why)
    | none => ∃ line, loadSegment files m s =
        .ok (m.store s.first ((contents (files s.path)).take (span s.first last)), line) := by
  have loaded := m.loadFile_of_le files s.path h
  rw [loadSegment_of_lastAddr m hl]
  generalize m.loadFile files s.path s.first last = r at loaded ⊢
  cases failed : fileFailure? s.path (span s.first last) (files s.path) with
  | some why =>
    rw [failed] at loaded
    cases r with
    | error e =>
      cases loaded
      rfl
    | ok _ => cases loaded
  | none =>
    rw [failed] at loaded
    cases r with
    | error _ => cases loaded
    | ok r =>
      obtain ⟨bus, line⟩ := r
      cases loaded
      exact ⟨line, rfl⟩

theorem loadSegment_of_loadable (h : s.Loadable files) :
    ∃ line, loadSegment files m s = .ok (m.store s.first (s.image files), line) := by
  obtain ⟨bytes, hf, h⟩ := h
  -- the segment is the beginning of the file that fills the range up to its last address
  have ends : ∃ last, lastAddr files s = .ok last ∧ s.first ≤ last ∧
      span s.first last = s.size files ∧ span s.first last ≤ bytes.length := by
    unfold Segment.size
    cases hl : s.last with
    | none =>
      rw [hl] at h
      have some : 0 < bytes.length := List.length_pos_iff.2 h.1
      have most : max bytes.length 1 = bytes.length := by omega
      obtain ⟨last, ends, ordered, fills⟩ := lastAddr_of_fits hl hf (by omega)
      refine ⟨last, ends, ordered, ?_, ?_⟩
      · rw [fills, most, hf]
        rfl
      · omega
    | some last =>
      rw [hl] at h
      have le : s.first.toNat ≤ last.toNat := h.1
      refine ⟨last, lastAddr_of_some hl, h.1, rfl, ?_⟩
      unfold span
      omega
  obtain ⟨last, ends, ordered, fills, enough⟩ := ends
  have loaded := loadSegment_of_le m ends ordered
  rw [hf, fileFailure?, if_neg (Nat.not_lt.2 enough), ← hf, fills] at loaded
  exact loaded

theorem loadSegment_of_unloadable {e : RunError} (h : s.Unloadable files e) :
    loadSegment files m s = .error e := by
  cases h with
  | reversed hl h =>
    rw [loadSegment_of_lastAddr m (lastAddr_of_some hl), Memory.loadFile_of_lt _ _ _ h]
    rfl
  | @missing last hl h hf =>
    have ends : lastAddr files s = .ok last := lastAddr_of_some hl
    have failed := loadSegment_of_le m ends h
    rw [hf] at failed
    exact failed
  | @short last bytes hl h hf hs =>
    have ends : lastAddr files s = .ok last := lastAddr_of_some hl
    have failed := loadSegment_of_le m ends h
    rw [hf, fileFailure?, if_pos hs] at failed
    exact failed
  | unknown hl hf =>
    apply loadSegment_of_error
    rw [lastAddr, hl, hf]
  | @large bytes hl hf h =>
    have above : 0xFFFF < s.first.toNat + max bytes.length 1 - 1 := by omega
    apply loadSegment_of_error
    rw [lastAddr, hl, hf]
    exact if_pos above
  | empty hl hf =>
    have top := s.first.toNat_lt
    have fits : s.first.toNat + max ([] : List Byte).length 1 ≤ 0x10000 := by
      show s.first.toNat + 1 ≤ 0x10000
      omega
    obtain ⟨last, ends, ordered, fills⟩ := lastAddr_of_fits hl hf fits
    have failed := loadSegment_of_le m ends ordered
    rw [hf, fills] at failed
    exact failed

theorem Segment.Unloadable.not_loadable {e : RunError} (h : s.Unloadable files e) :
    ¬ s.Loadable files := by
  intro loadable
  obtain ⟨line, loaded⟩ := loadSegment_of_loadable .zero loadable
  rw [loadSegment_of_unloadable .zero h] at loaded
  cases loaded

/-- What the segments give to `addr`, a later one before an earlier one. -/
def lastGiven (files : Files) (segments : List Segment) (addr : Addr) : Option Byte :=
  latest (fun s => s.gives files addr) segments

theorem loadSegments_cons_of_ok {segments : List Segment} {bus : Memory} {line : LogLine}
    (h : loadSegment files m s = .ok (bus, line)) : loadSegments files m (s :: segments) =
      (loadSegments files bus segments).map fun r => (r.1, line :: r.2) := by
  rw [loadSegments, h]
  show (loadSegments files bus segments).bind _ = _
  cases loadSegments files bus segments with
  | error _ => rfl
  | ok _ => rfl

theorem loadSegments_of_loadable {segments : List Segment} (h : ∀ s ∈ segments, s.Loadable files) :
    ∃ bus lines, loadSegments files m segments = .ok (bus, lines) ∧
      ∀ addr, bus.read addr = (lastGiven files segments addr).getD (m.read addr) := by
  induction segments generalizing m with
  | nil => exact ⟨m, [], rfl, fun _ => rfl⟩
  | cons s segments ih =>
    have first : s.Loadable files := h s List.mem_cons_self
    obtain ⟨line, loaded⟩ := loadSegment_of_loadable m first
    obtain ⟨bus, lines, rest, holds⟩ :=
      ih (m.store s.first (s.image files)) fun s' later => h s' (List.mem_cons_of_mem s later)
    refine ⟨bus, line :: lines, ?_, fun addr => ?_⟩
    · rw [loadSegments_cons_of_ok m loaded, rest]
      rfl
    · obtain ⟨fills, reach⟩ := first.fills
      have split : lastGiven files (s :: segments) addr =
          (lastGiven files segments addr).or (s.gives files addr) := latest_cons _ _ _
      rw [holds, split, Memory.read_store m (by rwa [fills])]
      cases lastGiven files segments addr <;> rfl

/-- The first segment that cannot be loaded keeps the ones behind it from being looked at. -/
theorem loadSegments_of_unloadable {before after : List Segment} {e : RunError}
    (hb : ∀ s' ∈ before, s'.Loadable files) (h : s.Unloadable files e) :
    loadSegments files m (before ++ s :: after) = .error e := by
  induction before generalizing m with
  | nil =>
    rw [List.nil_append, loadSegments, loadSegment_of_unloadable m h]
    rfl
  | cons s' before ih =>
    obtain ⟨line, loaded⟩ := loadSegment_of_loadable m (hb s' List.mem_cons_self)
    have rest := ih (m.store s'.first (s'.image files)) fun s later =>
      hb s (List.mem_cons_of_mem s' later)
    rw [List.cons_append, loadSegments_cons_of_ok m loaded, rest]
    rfl

end Loading

section Order

variable {files : Files} {s t : Segment} {before after : List Segment}

/-- Neither of two segments fills a cell of the other. -/
def Segment.Apart (files : Files) (s t : Segment) : Prop :=
  s.first.toNat + s.size files ≤ t.first.toNat ∨ t.first.toNat + t.size files ≤ s.first.toNat

theorem lastGiven_swap (hs : s.Loadable files) (ht : t.Loadable files) (apart : s.Apart files t)
    (addr : Addr) : lastGiven files (before ++ t :: s :: after) addr =
      lastGiven files (before ++ s :: t :: after) addr := by
  have one : s.gives files addr = none ∨ t.gives files addr = none := by
    by_cases given : (s.gives files addr).isSome
    · right
      have within := (hs.isSome_gives addr).1 given
      have outside := mt (ht.isSome_gives addr).1
      rw [Option.not_isSome_iff_eq_none] at outside
      apply outside
      rcases apart with below | above <;> omega
    · exact .inl (Option.not_isSome_iff_eq_none.1 given)
  have swap : (s.gives files addr).or (t.gives files addr) =
      (t.gives files addr).or (s.gives files addr) := by
    rcases one with none | none <;> rw [none] <;> simp
  have behind (later : Option Byte) : (later.or (s.gives files addr)).or (t.gives files addr) =
      (later.or (t.gives files addr)).or (s.gives files addr) := by
    rw [Option.or_assoc, Option.or_assoc, swap]
  unfold lastGiven
  rw [latest_append, latest_append, latest_cons, latest_cons, latest_cons, latest_cons, behind]

end Order

section Launch

variable (files : Files) (input : List String) (c : Config)

def started (bus : Memory) : Machine Memory Standard :=
  let m : Machine Memory Standard := { bus, observers := observers c input, logging := c.logLevel }
  match c.start with
  | some addr => m.startAt addr
  | none => m.start.2

theorem launch_of_error {e : RunError} (h : loadSegments files .zero c.segments = .error e) :
    launch files input c = .error e := by
  rw [launch, h]
  rfl

theorem launch_of_ok {bus : Memory} {lines : List LogLine}
    (h : loadSegments files .zero c.segments = .ok (bus, lines)) :
    ∃ m, launch files input c = .ok m ∧ Machine.Same (started input c bus) m := by
  have logged (m : Machine Memory Standard) :
      Machine.Same m (lines.foldl (fun m line => m.log line) m) := by
    clear h
    induction lines generalizing m with
    | nil => exact ⟨rfl, rfl⟩
    | cons line lines ih => exact (Machine.Same.log m line).trans (ih (m.log line))
  let m : Machine Memory Standard := { bus, observers := observers c input, logging := c.logLevel }
  have same := logged m
  rw [launch, h]
  unfold started
  cases hs : c.start with
  | some addr => exact ⟨_, rfl, same.startAt addr⟩
  | none => exact ⟨_, rfl, same.start⟩

theorem started_keeps (bus : Memory) :
    let m := started input c bus
    m.bus = bus ∧ m.cpu.executed = 0 ∧ m.cpu.regs.pc = c.start.getD (bus.readWord 0xFFFC) := by
  unfold started
  cases c.start with
  | some addr =>
    have placed := Machine.same_startAt addr
      ({ bus, observers := observers c input, logging := c.logLevel } : Machine Memory Standard)
    refine ⟨placed.bus, ?_, ?_⟩
    · rw [placed.engine]
      rfl
    · rw [placed.engine]
      rfl
  | none => exact Machine.start_keeps _

variable {files c}

theorem launch_of_loadable (h : ∀ s ∈ c.segments, s.Loadable files) : ∃ m bus,
    launch files input c = .ok m ∧ Machine.Same (started input c bus) m ∧
      ∀ addr, bus.read addr = (lastGiven files c.segments addr).getD 0 := by
  obtain ⟨bus, lines, loaded, holds⟩ := loadSegments_of_loadable .zero h
  obtain ⟨m, launched, same⟩ := launch_of_ok files input c loaded
  refine ⟨m, bus, launched, same, fun addr => ?_⟩
  rw [holds, Memory.read_zero]

theorem launch_swap {s t : Segment} {before after : List Segment}
    (hc : c.segments = before ++ s :: t :: after) (h : ∀ s ∈ c.segments, s.Loadable files)
    (apart : s.Apart files t) {m : Machine Memory Standard} (hm : launch files input c = .ok m) :
    ∃ m', launch files input { c with segments := before ++ t :: s :: after } = .ok m' ∧
      Machine.Same m m' := by
  have swapped : (before ++ t :: s :: after).Perm c.segments := by
    rw [hc]
    exact (List.Perm.swap s t after).append_left before
  obtain ⟨m₁, bus, launched, same, holds⟩ := launch_of_loadable input h
  obtain ⟨m₂, bus', launched', same', holds'⟩ :=
    launch_of_loadable (c := { c with segments := before ++ t :: s :: after }) input
      fun s' hs => h s' (swapped.mem_iff.1 hs)
  have hs : s.Loadable files := h s (by simp [hc])
  have ht : t.Loadable files := h t (by simp [hc])
  obtain rfl : bus' = bus := by
    refine Memory.ext_read fun addr => ?_
    rw [holds, holds', hc, lastGiven_swap hs ht apart]
  obtain rfl : m₁ = m := Except.ok.inj (launched.symm.trans hm)
  exact ⟨m₂, launched', same.symm.trans same'⟩

theorem exists_first_unloadable {segments : List Segment}
    (regular : ∀ s ∈ segments, files s.path ≠ some .directory)
    (h : ¬ ∀ s ∈ segments, s.Loadable files) : ∃ before, ∃ s : Segment, ∃ after e,
      segments = before ++ s :: after ∧ (∀ s' ∈ before, s'.Loadable files) ∧
        ¬ s.Loadable files ∧ s.Unloadable files e := by
  induction segments with
  | nil => exact absurd (by simp) h
  | cons s segments ih =>
    rcases Segment.loadable_or_unloadable (regular s List.mem_cons_self) with first | ⟨e, first⟩
    · have later : ¬ ∀ s ∈ segments, s.Loadable files := fun rest =>
        h (List.forall_mem_cons.2 ⟨first, rest⟩)
      obtain ⟨before, t, after, e, rfl, loadable, fails⟩ :=
        ih (fun s' hs => regular s' (List.mem_cons_of_mem s hs)) later
      exact ⟨s :: before, t, after, e, rfl, List.forall_mem_cons.2 ⟨first, loadable⟩, fails⟩
    · exact ⟨[], s, segments, e, rfl, by simp, first.not_loadable, first⟩

/-- If all segments can be loaded, the machine is launched before its first instruction, on a memory
in which each cell holds the byte of the last segment that fills it, and zero where none does; two
neighbouring segments that are apart can change places. Otherwise it is not launched, for the reason
that keeps the first segment which cannot be loaded from it. -/
theorem launch_loads_segments (regular : ∀ s ∈ c.segments, files s.path ≠ some .directory) :
    ((∀ s ∈ c.segments, s.Loadable files) →
      ∃ m, launch files input c = .ok m ∧ m.cpu.executed = 0 ∧
        m.cpu.regs.pc = c.start.getD (m.bus.readWord 0xFFFC) ∧
        (∀ addr, m.bus.read addr = (lastGiven files c.segments addr).getD 0) ∧
        ∀ before s t after, c.segments = before ++ s :: t :: after → s.Apart files t →
          ∃ m', launch files input { c with segments := before ++ t :: s :: after } = .ok m' ∧
            Machine.Same m m') ∧
    (∀ s : Segment, s.Loadable files → ∀ addr, (s.gives files addr).isSome ↔
      s.first.toNat ≤ addr.toNat ∧ addr.toNat < s.first.toNat + s.size files) ∧
    (∀ (before : List Segment) (s : Segment) (after : List Segment) (e : RunError),
      c.segments = before ++ s :: after → (∀ s' ∈ before, s'.Loadable files) →
        s.Unloadable files e →
        launch files input c = .error e) ∧
    ((¬ ∀ s ∈ c.segments, s.Loadable files) → ∃ before, ∃ s : Segment, ∃ after e,
      c.segments = before ++ s :: after ∧ (∀ s' ∈ before, s'.Loadable files) ∧
        ¬ s.Loadable files ∧ s.Unloadable files e) := by
  refine ⟨fun h => ?_, fun s h => h.isSome_gives, ?_, exists_first_unloadable regular⟩
  · obtain ⟨m, bus, launched, same, holds⟩ := launch_of_loadable input h
    obtain ⟨left, executed, pc⟩ := started_keeps input c bus
    have held : m.bus = bus := same.bus.trans left
    refine ⟨m, launched, ?_, ?_, ?_, ?_⟩
    · rw [same.engine]
      exact executed
    · rw [same.engine, held]
      exact pc
    · rw [held]
      exact holds
    · exact fun before s t after hc apart => launch_swap input hc h apart launched
  · intro before s after e hc hb fails
    apply launch_of_error
    rw [hc]
    exact loadSegments_of_unloadable .zero hb fails

end Launch

def layeredFiles : Files
  | "program" => some (.regular (List.replicate 16 0xEA))
  | "vector" => some (.regular [0xF0, 0xFF, 0x01, 0x02])
  | _ => none

/-- A program that reaches the top, the reset vector over it, and a file somewhere else. -/
def layered : Config where
  segments := [⟨"program", 0xFFF0, none⟩, ⟨"vector", 0xFFFC, some 0xFFFD⟩, ⟨"vector", 0x0010, none⟩]

def reversing : Config :=
  { layered with segments := layered.segments ++ [⟨"rest", 0x2000, some 0x1FFF⟩] }

theorem layered_launches :
    (∃ m, launch layeredFiles [] layered = .ok m ∧ m.cpu.regs.pc = 0xFFF0 ∧
      m.bus.read 0xFFFB = 0xEA ∧ m.bus.read 0xFFFD = 0xFF ∧ m.bus.read 0x0000 = 0x00 ∧
      ∃ m', launch layeredFiles [] { layered with segments :=
        [⟨"program", 0xFFF0, none⟩, ⟨"vector", 0x0010, none⟩, ⟨"vector", 0xFFFC, some 0xFFFD⟩] } =
          .ok m' ∧ Machine.Same m m') ∧
    launch layeredFiles [] reversing = .error (.load (.invalidRange 0x2000 0x1FFF)) := by
  have loadable : ∀ s ∈ layered.segments, s.Loadable layeredFiles := by
    simp only [layered, List.forall_mem_cons]
    refine ⟨⟨_, rfl, by simp, by decide⟩, ⟨_, rfl, by decide, by decide⟩,
      ⟨_, rfl, by simp, by decide⟩, by simp⟩
  have regular : ∀ s ∈ layered.segments, layeredFiles s.path ≠ some .directory := by decide
  have regular' : ∀ s ∈ reversing.segments, layeredFiles s.path ≠ some .directory := by decide
  constructor
  · obtain ⟨m, launched, -, pc, holds, swaps⟩ := (launch_loads_segments [] regular).1 loadable
    have low : m.bus.read 0xFFFC = 0xF0 := holds 0xFFFC
    have high : m.bus.read 0xFFFD = 0xFF := holds 0xFFFD
    have vector : m.bus.readWord 0xFFFC = word (m.bus.read 0xFFFC) (m.bus.read 0xFFFD) := rfl
    refine ⟨m, launched, ?_, holds 0xFFFB, high, holds 0x0000, ?_⟩
    · rw [pc, vector, low, high]
      rfl
    · exact swaps [⟨"program", 0xFFF0, none⟩] _ _ [] rfl (.inr (by decide))
  · have fails : Segment.Unloadable layeredFiles ⟨"rest", 0x2000, some 0x1FFF⟩
        (.load (.invalidRange 0x2000 0x1FFF)) := .reversed rfl (by decide)
    exact (launch_loads_segments [] regular').2.2.1 layered.segments _ [] _ rfl loadable fails

end Mos6502.CommandLine
