import Mos6502.Emulator

namespace Mos6502

/-- The byte at `addr`, if any, of `bytes` that lie from `first` on. -/
def placed (first : Nat) (bytes : List Byte) (addr : Addr) : Option Byte :=
  if first ≤ addr.toNat then bytes[addr.toNat - first]? else none

section Placed

variable {first : Nat} {addr : Addr} {v : Byte} {bytes : List Byte}

@[simp] theorem placed_nil : placed first [] addr = none := by simp [placed]

theorem placed_of_lt (h : addr.toNat < first) : placed first bytes addr = none :=
  if_neg (Nat.not_le.2 h)

theorem placed_cons : placed first (v :: bytes) addr =
    if addr.toNat = first then some v else placed (first + 1) bytes addr := by
  unfold placed
  split
  · rename_i reaches
    by_cases here : addr.toNat = first
    · rw [if_pos here, here, Nat.sub_self]
      rfl
    · have behind : first + 1 ≤ addr.toNat := by omega
      have index : addr.toNat - first = addr.toNat - (first + 1) + 1 := by omega
      rw [if_neg here, if_pos behind, index, List.getElem?_cons_succ]
  · rw [if_neg (by omega), if_neg (by omega)]

theorem isSome_placed : (placed first bytes addr).isSome ↔
    first ≤ addr.toNat ∧ addr.toNat < first + bytes.length := by
  unfold placed
  split
  · rw [isSome_getElem?]
    omega
  · simp only [Option.isSome_none, Bool.false_eq_true, false_iff]
    omega

end Placed

/-- What the last of `as` gives that gives anything. -/
def latest {α : Type} (gives : α → Option Byte) (as : List α) : Option Byte :=
  as.reverse.findSome? gives

section Latest

variable {α : Type} (gives : α → Option Byte) (as bs : List α)

theorem latest_cons (a : α) : latest gives (a :: as) = (latest gives as).or (gives a) := by
  unfold latest
  rw [List.reverse_cons, List.findSome?_append, List.findSome?_singleton]

theorem latest_append : latest gives (as ++ bs) = (latest gives bs).or (latest gives as) := by
  unfold latest
  rw [List.reverse_append, List.findSome?_append]

end Latest

namespace Memory

/-- Bytes that do not reach over the top are stored where they are placed, and nothing else changes. -/
theorem read_store {first : Addr} {bytes : List Byte} (m : Memory)
    (h : first.toNat + bytes.length ≤ 0x10000) (addr : Addr) :
    (m.store first bytes).read addr = (placed first.toNat bytes addr).getD (m.read addr) := by
  induction bytes generalizing m first with
  | nil =>
    rw [placed_nil]
    rfl
  | cons v bytes ih =>
    rw [List.length_cons] at h
    -- the next address wraps only if no bytes are left
    have next : (first + 1).toNat = (first.toNat + 1) % 0x10000 := UInt16.toNat_add first 1
    have rest : ((m.write first v).store (first + 1) bytes).read addr =
        (placed (first.toNat + 1) bytes addr).getD ((m.write first v).read addr) := by
      cases bytes with
      | nil =>
        rw [placed_nil]
        rfl
      | cons w bytes =>
        rw [List.length_cons] at h ih
        have low : (first + 1).toNat = first.toNat + 1 := by omega
        rw [ih _ (by omega), low]
    rw [store, rest, read_write, placed_cons]
    by_cases here : addr = first
    · subst addr
      have behind : first.toNat < first.toNat + 1 := Nat.lt_succ_self _
      rw [placed_of_lt behind, if_pos rfl, if_pos rfl]
      rfl
    · have apart : addr.toNat ≠ first.toNat := fun same => here (UInt16.toNat_inj.1 same)
      rw [if_neg here, if_neg apart]

end Memory

def span (first last : Addr) : Nat := last.toNat + 1 - first.toNat

theorem add_span_le {first last : Addr} (h : first ≤ last) :
    first.toNat + span first last ≤ 0x10000 := by
  have top := last.toNat_lt
  have le : first.toNat ≤ last.toNat := h
  unfold span
  omega

theorem span_ofNat {start : Addr} {count : Nat} (some : 0 < count)
    (fits : start.toNat + count ≤ 0x10000) :
    let last := UInt16.ofNat (start.toNat + count - 1)
    start ≤ last ∧ span start last = count := by
  have low : (UInt16.ofNat (start.toNat + count - 1)).toNat = start.toNat + count - 1 :=
    UInt16.toNat_ofNat_of_lt' (show _ < 0x10000 by omega)
  constructor
  · rw [UInt16.le_iff_toNat_le, low]
    omega
  · rw [span, low]
    omega

theorem rangeLength_eq (first last : Addr) : rangeLength first last =
    if last < first then .error (.invalidRange first last) else .ok (span first last) := by
  unfold rangeLength
  split
  · rfl
  · rename_i ordered
    have le : first.toNat ≤ last.toNat := UInt16.not_lt.1 ordered
    have same : last.toNat - first.toNat + 1 = span first last := by
      unfold span
      omega
    rw [same]

/-- What keeps `needed` bytes from being read from what a path leads to. -/
def fileFailure? (path : String) (needed : Nat) : Option FileEntry → Option LoadError
  | none => some (.cannotOpen path)
  | some .directory => some (.cannotRead path)
  | some (.regular bytes) =>
    if bytes.length < needed then some (.shortRead path needed bytes.length) else none

def contents : Option FileEntry → List Byte
  | some (.regular bytes) => bytes
  | _ => []

namespace Memory

variable (m : Memory) (files : Files) (path : String) (bytes : List Byte) {first last : Addr}

theorem loadRange_of_lt (h : last < first) :
    m.loadRange bytes first last = .error (.invalidRange first last) := by
  rw [loadRange, rangeLength_eq, if_pos h]
  rfl

theorem loadRange_of_le (h : first ≤ last) : m.loadRange bytes first last =
    if bytes.length = span first last then .ok (m.store first bytes)
    else .error (.rangeMismatch first last (span first last) bytes.length) := by
  rw [loadRange, rangeLength_eq, if_neg (UInt16.not_lt.2 h)]
  rfl

theorem loadFile_of_lt (h : last < first) :
    m.loadFile files path first last = .error (.invalidRange first last) := by
  rw [loadFile, rangeLength_eq, if_pos h]
  rfl

theorem loadFile_of_le (h : first ≤ last) : (m.loadFile files path first last).map (·.1) =
    match fileFailure? path (span first last) (files path) with
    | some why => .error why
    | none => .ok (m.store first ((contents (files path)).take (span first last))) := by
  rw [loadFile, rangeLength_eq, if_neg (UInt16.not_lt.2 h)]
  match files path with
  | none | some .directory => rfl
  | some (.regular bytes) =>
    show (if _ then _ else _ : Except LoadError (Memory × LogLine)).map _ = _
    by_cases short : bytes.length < span first last
    · rw [if_pos short, fileFailure?, if_pos short]
      rfl
    · have taken : (bytes.take (span first last)).length = span first last := by
        rw [List.length_take]
        omega
      rw [if_neg short, fileFailure?, if_neg short, loadRange_of_le _ _ h, if_pos taken]
      rfl

end Memory

def Emulator.loaded (e : Emulator) : Except LoadError Memory → Except EmulatorError Emulator
  | .ok bus => .ok { e with bus }
  | .error why => .error (.load why)

/-- What changes a memory at one call. Each load of a file sees the files as they are then. -/
inductive Update where
  | write (addr : Addr) (v : Byte)
  | writeWord (addr w : Addr)
  | loadRange (bytes : List Byte) (first last : Addr)
  | loadFile (files : Files) (path : String) (first last : Addr)
  | image (bytes : List Byte) (start : Addr)

namespace Update

def failure? : Update → Option EmulatorError
  | .write _ _ | .writeWord _ _ => none
  | .loadRange bytes first last =>
    if last < first then some (.load (.invalidRange first last))
    else if bytes.length = span first last then none
    else some (.load (.rangeMismatch first last (span first last) bytes.length))
  | .loadFile files path first last =>
    if last < first then some (.load (.invalidRange first last))
    else (fileFailure? path (span first last) (files path)).map .load
  | .image bytes start =>
    if bytes = [] ∨ start.toNat + bytes.length ≤ 0x10000 then none
    else some (.doesNotFit bytes.length start)

/-- The byte, if any, that the update stores at `addr` when it succeeds. -/
def stores (addr : Addr) : Update → Option Byte
  | .write first v => placed first.toNat [v] addr
  | .writeWord first w =>
    (placed (first + 1).toNat [highByte w] addr).or (placed first.toNat [lowByte w] addr)
  | .loadRange bytes first _ => placed first.toNat bytes addr
  | .loadFile files path first last =>
    placed first.toNat ((contents (files path)).take (span first last)) addr
  | .image bytes start => placed start.toNat bytes addr

def attempt (e : Emulator) : Update → Except EmulatorError Emulator
  | .write addr v => .ok (e.write addr v)
  | .writeWord addr w => .ok { e with bus := e.bus.writeWord addr w }
  | .loadRange bytes first last => e.loaded (e.bus.loadRange bytes first last)
  | .loadFile files path first last => e.loaded ((e.bus.loadFile files path first last).map (·.1))
  | .image bytes start => e.load bytes start

inductive Attempted (u : Update) (e : Emulator) : Except EmulatorError Emulator → Prop
  | failed {why : EmulatorError} (hw : u.failure? = some why) : Attempted u e (.error why)
  | stored {bus : Memory} (hw : u.failure? = none)
      (hb : ∀ addr, bus.read addr = (u.stores addr).getD (e.read addr)) :
      Attempted u e (.ok { e with bus })

theorem placed_singleton {first addr : Addr} {v : Byte} :
    placed first.toNat [v] addr = if addr = first then some v else none := by
  simp only [placed_cons, placed_nil, UInt16.toNat_inj]

variable (e : Emulator)

theorem attempted_write (first : Addr) (v : Byte) :
    Attempted (.write first v) e (attempt e (.write first v)) := by
  refine .stored rfl fun addr => ?_
  rw [stores, placed_singleton, Memory.read_write]
  split <;> rfl

theorem attempted_writeWord (first w : Addr) :
    Attempted (.writeWord first w) e (attempt e (.writeWord first w)) := by
  refine .stored rfl fun addr => ?_
  rw [stores, placed_singleton, placed_singleton, Memory.writeWord, Memory.read_write,
    Memory.read_write]
  by_cases high : addr = first + 1
  · rw [if_pos high, if_pos high]
    rfl
  · rw [if_neg high, if_neg high, Option.none_or]
    split <;> rfl

theorem attempted_loadRange (bytes : List Byte) (first last : Addr) :
    Attempted (.loadRange bytes first last) e (attempt e (.loadRange bytes first last)) := by
  rw [attempt]
  by_cases reversed : last < first
  · rw [Memory.loadRange_of_lt _ _ reversed]
    exact .failed (if_pos reversed)
  · have ordered : first ≤ last := UInt16.not_lt.1 reversed
    rw [Memory.loadRange_of_le _ _ ordered]
    by_cases fills : bytes.length = span first last
    · have reach : first.toNat + bytes.length ≤ 0x10000 := by
        rw [fills]
        exact add_span_le ordered
      rw [if_pos fills]
      exact .stored ((if_neg reversed).trans (if_pos fills)) (e.bus.read_store reach)
    · rw [if_neg fills]
      exact .failed ((if_neg reversed).trans (if_neg fills))

theorem attempted_loadFile (files : Files) (path : String) (first last : Addr) :
    Attempted (.loadFile files path first last) e (attempt e (.loadFile files path first last)) := by
  rw [attempt]
  by_cases reversed : last < first
  · rw [Memory.loadFile_of_lt _ _ _ reversed]
    exact .failed (if_pos reversed)
  · have ordered : first ≤ last := UInt16.not_lt.1 reversed
    have cause : failure? (.loadFile files path first last) =
        (fileFailure? path (span first last) (files path)).map .load := if_neg reversed
    rw [Memory.loadFile_of_le _ _ _ ordered]
    cases failed : fileFailure? path (span first last) (files path) with
    | some why =>
      rw [failed] at cause
      exact .failed cause
    | none =>
      rw [failed] at cause
      have reach : first.toNat + ((contents (files path)).take (span first last)).length ≤
          0x10000 := by
        have := add_span_le ordered
        rw [List.length_take]
        omega
      exact .stored cause (e.bus.read_store reach)

/-- An image that fits is a range that ends where the image does. -/
theorem image_eq_loadRange {bytes : List Byte} {start : Addr} (hne : bytes ≠ [])
    (fits : start.toNat + bytes.length ≤ 0x10000) : attempt e (.image bytes start) =
      attempt e (.loadRange bytes start (UInt16.ofNat (start.toNat + bytes.length - 1))) := by
  have within : ¬ 0xFFFF < start.toNat + bytes.length - 1 := by omega
  have some : ¬ bytes.isEmpty := by simpa using hne
  show e.load bytes start = _
  rw [Emulator.load, if_neg some, if_neg within]
  rfl

theorem attempted_image (bytes : List Byte) (start : Addr) :
    Attempted (.image bytes start) e (attempt e (.image bytes start)) := by
  by_cases none : bytes = []
  · subst none
    have same : attempt e (.image [] start) = .ok { e with bus := e.bus } := rfl
    rw [same]
    refine .stored (by simp [failure?]) fun addr => ?_
    rw [stores, placed_nil]
    rfl
  · have some : 0 < bytes.length := List.length_pos_iff.2 none
    by_cases fits : start.toNat + bytes.length ≤ 0x10000
    · obtain ⟨ordered, fills⟩ := span_ofNat some fits
      rw [image_eq_loadRange e none fits, attempt, Memory.loadRange_of_le _ _ ordered,
        if_pos fills.symm]
      exact .stored (by simp [failure?, fits]) (e.bus.read_store fits)
    · have above : 0xFFFF < start.toNat + bytes.length - 1 := by omega
      have tried : attempt e (.image bytes start) = .error (.doesNotFit bytes.length start) := by
        rw [attempt, Emulator.load, if_neg (by simpa using none), if_pos above]
      rw [tried]
      exact .failed (by simp [failure?, none, fits])

theorem attempted (u : Update) : Attempted u e (u.attempt e) := by
  cases u with
  | write addr v => exact attempted_write e addr v
  | writeWord addr w => exact attempted_writeWord e addr w
  | loadRange bytes first last => exact attempted_loadRange e bytes first last
  | loadFile files path first last => exact attempted_loadFile e files path first last
  | image bytes start => exact attempted_image e bytes start

theorem loadFile_eq_loadRange {files : Files} {path : String} {bytes : List Byte}
    {first last : Addr} (hf : files path = some (.regular bytes))
    (enough : span first last ≤ bytes.length) : attempt e (.loadFile files path first last) =
      attempt e (.loadRange (bytes.take (span first last)) first last) := by
  rw [attempt, attempt]
  by_cases reversed : last < first
  · rw [Memory.loadFile_of_lt _ _ _ reversed, Memory.loadRange_of_lt _ _ reversed]
    rfl
  · have ordered : first ≤ last := UInt16.not_lt.1 reversed
    have taken : (bytes.take (span first last)).length = span first last := by
      rw [List.length_take, Nat.min_eq_left enough]
    rw [Memory.loadFile_of_le _ _ _ ordered, Memory.loadRange_of_le _ _ ordered, if_pos taken, hf,
      fileFailure?, if_neg (Nat.not_lt.2 enough)]
    rfl

/-- The emulator behind the update, whether it succeeds or not. -/
def perform (e : Emulator) (u : Update) : Emulator :=
  match u.attempt e with
  | .ok e' => e'
  | .error _ => e

/-- The byte, if any, that the update stores at `addr`. -/
def effect (addr : Addr) (u : Update) : Option Byte :=
  match u.failure? with
  | some _ => none
  | none => u.stores addr

def lastStored (us : List Update) (addr : Addr) : Option Byte := latest (effect addr) us

theorem read_perform (u : Update) (addr : Addr) :
    (u.perform e).read addr = (u.effect addr).getD (e.read addr) := by
  have tried := u.attempted e
  unfold perform effect
  generalize u.attempt e = r at tried
  cases tried with
  | failed hw => rw [hw]; rfl
  | stored hw hb => rw [hw]; exact hb addr

theorem read_performs (us : List Update) (addr : Addr) :
    (us.foldl perform e).read addr = (lastStored us addr).getD (e.read addr) := by
  induction us generalizing e with
  | nil => rfl
  | cons u us ih =>
    have split : lastStored (u :: us) addr = (lastStored us addr).or (u.effect addr) :=
      latest_cons (effect addr) us u
    rw [List.foldl_cons, ih, split, read_perform]
    cases lastStored us addr <;> rfl

/-- After any updates of an empty memory, a cell holds what a successful one has stored there last.
Whether an update succeeds hangs on its arguments alone, and one that fails changes nothing. Files and
images are loaded as the ranges that they fill. -/
theorem updates_store :
    (∀ us addr,
      let e := us.foldl perform Emulator.new
      e.read addr = (lastStored us addr).getD 0 ∧
        e.bus.readWord addr =
          word ((lastStored us addr).getD 0) ((lastStored us (addr + 1)).getD 0)) ∧
    (∀ u e, Attempted u e (u.attempt e) ∧ ∀ why, u.failure? = some why → u.perform e = e) ∧
    (∀ e files path bytes first last, files path = some (.regular bytes) →
      span first last ≤ bytes.length → attempt e (.loadFile files path first last) =
        attempt e (.loadRange (bytes.take (span first last)) first last)) ∧
    ∀ e bytes start, bytes ≠ [] → start.toNat + bytes.length ≤ 0x10000 →
      attempt e (.image bytes start) =
        attempt e (.loadRange bytes start (UInt16.ofNat (start.toNat + bytes.length - 1))) := by
  have cell (us : List Update) (addr : Addr) :
      (us.foldl perform Emulator.new).read addr = (lastStored us addr).getD 0 := by
    rw [read_performs]
    congr 1
    exact Memory.read_zero addr
  refine ⟨fun us addr => ⟨cell us addr, ?_⟩, fun u e => ⟨u.attempted e, fun why failed => ?_⟩,
    fun e _ _ _ _ _ => loadFile_eq_loadRange e, fun e _ _ => image_eq_loadRange e⟩
  · rw [← cell, ← cell]
    rfl
  · have tried := u.attempted e
    unfold perform
    generalize u.attempt e = r at tried
    cases tried with
    | failed _ => rfl
    | stored hw _ =>
      rw [hw] at failed
      cases failed

/-- A word across the top, a range over its low half, a range that ends before it begins, an image
that does not fit, and the beginning of a file. -/
def overlapping : List Update :=
  [.writeWord 0xFFFF 0xBEEF, .loadRange [1, 2, 3] 0xFFFD 0xFFFF, .loadRange [9] 0x0000 0xFFFF,
    .image [7, 8] 0xFFFF, .loadFile (fun _ => some (.regular [4, 5, 6])) "rom" 0x0010 0x0011]

theorem overlapping_stores :
    (overlapping.foldl perform Emulator.new).bus.readWord 0xFFFF = 0xBE03 ∧
    (overlapping.foldl perform Emulator.new).read 0x0011 = 5 ∧
    (overlapping.foldl perform Emulator.new).read 0x0012 = 0 ∧
    perform Emulator.new (.image [7, 8] 0xFFFF) = Emulator.new ∧
    attempt Emulator.new (.loadFile (fun _ => some (.regular [4, 5, 6])) "rom" 0x0010 0x0011) =
      attempt Emulator.new (.loadRange [4, 5] 0x0010 0x0011) ∧
    attempt Emulator.new (.image [7, 8] 0xFFFE) =
      attempt Emulator.new (.loadRange [7, 8] 0xFFFE 0xFFFF) := by
  obtain ⟨cells, outcomes, files, images⟩ := updates_store
  have low : (lastStored overlapping 0xFFFF).getD 0 = 0x03 := by decide
  have high : (lastStored overlapping (0xFFFF + 1)).getD 0 = 0xBE := by decide
  have word := (cells overlapping 0xFFFF).2
  rw [low, high] at word
  have enough : span 0x0010 0x0011 ≤ [4, 5, 6].length := by decide
  have file := files Emulator.new (fun _ => some (.regular [4, 5, 6])) "rom" _ 0x0010 0x0011 rfl enough
  have fits : (0xFFFE : Addr).toNat + [7, 8].length ≤ 0x10000 := by decide
  exact ⟨word, (cells overlapping 0x0011).1, (cells overlapping 0x0012).1, (outcomes _ _).2 _ rfl, file,
    images Emulator.new [7, 8] 0xFFFE (by simp) fits⟩

end Update

end Mos6502
