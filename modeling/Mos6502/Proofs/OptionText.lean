import Mos6502.CommandLine.Options
import Mos6502.Proofs.SegmentText

namespace Mos6502.CommandLine

/-- `text` is `addr` in four hexadecimal digits, of either case. -/
def FourDigits (addr : Addr) (text : String) : Prop :=
  text.toList.map Char.toLower = (Hex.word addr).toList.map Char.toLower

/-- `text` is the name of a level, in letters of either case. -/
def LevelName (level : LogLevel) (text : String) : Prop :=
  text.toList.map Char.toUpper = level.name.toList

theorem byteChars_digits (b : Byte) :
    List.Forall₂ (IsDigit 16) (Hex.byteChars b) [b.toNat / 16, b.toNat % 16] := by
  have lower : ∀ d < 16, (Hex.digit d).toLower = d.digitChar := by decide
  have small := b.toNat_lt
  have high : b.toNat / 16 < 16 := by omega
  have low : b.toNat % 16 < 16 := by omega
  exact .cons ⟨high, lower _ high⟩ (.cons ⟨low, lower _ low⟩ .nil)

theorem spells_word (addr : Addr) : Spells 16 (Hex.word addr).toList addr.toNat := by
  have digits := List.rel_append (byteChars_digits (highByte addr)) (byteChars_digits (lowByte addr))
  have printed : (Hex.word addr).toList =
      Hex.byteChars (highByte addr) ++ Hex.byteChars (lowByte addr) := String.toList_ofList
  rw [printed]
  refine ⟨List.cons_ne_nil _ _, _, digits, ?_⟩
  have whole := congrArg UInt16.toNat (word_lowByte_highByte addr)
  rw [word_toNat] at whole
  simp only [List.cons_append, List.nil_append, List.reverse_cons, List.reverse_nil,
    Nat.ofDigits_cons, Nat.ofDigits_nil]
  omega

theorem FourDigits.spells {addr : Addr} {text : String} (h : FourDigits addr text) :
    Spells 16 text.toList addr.toNat := (spells_word addr).of_map_toLower h

theorem FourDigits.parseAddress {addr : Addr} {text : String} (h : FourDigits addr text) :
    parseAddress text = .ok addr := by
  apply parseAddress_eq_ok_iff.2
  refine ⟨"", by decide, "", by decide, text, ?_, h.spells⟩
  rw [String.empty_append, String.empty_append]

theorem parseCount_toString {least n : Nat} (hl : least ≤ n) (hn : n < 2 ^ 64) :
    parseCount least (toString n) = .ok n := by
  have spells : Spells 10 (Nat.toDigits 10 n) n := spells_toDigits (by decide) (by decide) n
  have unsigned : '+' ∉ Nat.toDigits 10 n := spells.not_mem (by decide)
  have bare : withoutPlus ("".toList ++ Nat.toDigits 10 n) = Nat.toDigits 10 n :=
    withoutPlus_append (by decide) unsigned
  have text : (toString n).toList = "".toList ++ Nat.toDigits 10 n := Nat.toList_repr
  have bounds : least ≤ n ∧ n < UInt64.size := ⟨hl, hn⟩
  rw [parseCount, text, bare, (number?_eq_some_iff decimalValue?_eq_some_iff).2 spells]
  exact if_pos bounds

theorem parseCount_eq_ok {least n : Nat} {text : String} (h : parseCount least text = .ok n) :
    least ≤ n ∧ n < 2 ^ 64 := by
  unfold parseCount at h
  split at h
  · split at h
    · rename_i bounds
      cases h
      exact bounds
    · cases h
  · cases h

theorem LevelName.parseLevel {level : LogLevel} {text : String} (h : LevelName level text) :
    parseLevel text = .ok level := by
  unfold CommandLine.parseLevel
  rw [show text.toList.map Char.toUpper = level.name.toList from h]
  cases level <;> rfl

namespace Item

def name : Item → String
  | .inl .load => "load"
  | .inl .start => "start"
  | .inl .maxInstructions => "max-instructions"
  | .inl .slowDown => "slow-down-ms"
  | .inl .logLevel => "log-level"
  | .inr .debug => "debug"
  | .inr .showZeroPage => "show-zero-page"
  | .inr .step => "step"
  | .inr .help => "help"
  | .inr .version => "version"

theorem long?_name (i : Item) : long? i.name = some i := by
  rcases i with s | s <;> cases s <;> rfl

theorem name_ne (i : Item) : i.name ≠ "" := by
  rcases i with s | s <;> cases s <;> decide

theorem not_mem_name (i : Item) : '=' ∉ i.name.toList := by
  rcases i with s | s <;> cases s <;> decide

end Item

/-- An option as it is given: a setting with the text of its value, or a switch. -/
inductive Command where
  | setting (s : Setting) (text : String)
  | switch (s : Switch)
  deriving DecidableEq, Repr

namespace Command

/-- The option in its long form, with the value behind an equals sign. -/
def arg : Command → String
  | .setting s text => "--" ++ Item.name (.inl s) ++ "=" ++ text
  | .switch s => "--" ++ Item.name (.inr s)

/-- What has been set when the option has been taken. -/
def run (g : Given) : Command → Except UsageError Given
  | .setting s text => g.give s text
  | .switch s => g.turnOn s

end Command

/-- What is documented of a reader of arguments, which tells what they set: options in their long form
are taken one behind the other, each by its name and with all behind the first equals sign for its value,
and other forms say no more than such options do. -/
structure LawfulReader (read : List String → Except UsageError Given) : Prop where
  long : ∀ {commands : List Command} {g : Given},
    commands.foldlM Command.run {} = .ok g → read (commands.map Command.arg) = .ok g
  others : ∀ {args : List String} {g : Given},
    read args = .ok g → ∃ commands : List Command, commands.foldlM Command.run {} = .ok g

inductive Choice where
  | load (s : Segment)
  | start (addr : Addr)
  | maxInstructions (n : Nat)
  | slowDown (ms : Nat)
  | logLevel (level : LogLevel)
  | debug
  | showZeroPage
  | step
  deriving DecidableEq, Repr

namespace Choice

def item : Choice → Item
  | .load _ => .inl .load
  | .start _ => .inl .start
  | .maxInstructions _ => .inl .maxInstructions
  | .slowDown _ => .inl .slowDown
  | .logLevel _ => .inl .logLevel
  | .debug => .inr .debug
  | .showZeroPage => .inr .showZeroPage
  | .step => .inr .step

def segment? : Choice → Option Segment
  | .load s => some s
  | _ => none

def Valid : Choice → Prop
  | .load s => s.path ≠ ""
  | .maxInstructions n => 1 ≤ n ∧ n < 2 ^ 64
  | .slowDown ms => ms < 2 ^ 64
  | _ => True

/-- The two may stand in one list: nothing but an image is given twice. -/
def Compatible (a b : Choice) : Prop := a.item = b.item → a.item = .inl .load

def ReadFrom (text : String) : Choice → Prop
  | .load s => parseSegment text = .ok s
  | .start addr => parseAddress text = .ok addr
  | .maxInstructions n => parseCount 1 text = .ok n
  | .slowDown ms => parseCount 0 text = .ok ms
  | .logLevel level => parseLevel text = .ok level
  | .debug | .showZeroPage | .step => True

/-- `text` is the option's value: numbers in decimal, addresses in four hexadecimal digits. -/
inductive HasText : Choice → String → Prop
  | load {s : Segment} {first : String} {last : Option String} (hf : FourDigits s.first first)
      (hl : Option.Rel (fun text addr => FourDigits addr text) last s.last) :
      HasText (.load s) (SegmentParts.mk s.path first last).text
  | start {addr : Addr} {text : String} (h : FourDigits addr text) : HasText (.start addr) text
  | maxInstructions (n : Nat) : HasText (.maxInstructions n) (toString n)
  | slowDown (ms : Nat) : HasText (.slowDown ms) (toString ms)
  | logLevel {level : LogLevel} {text : String} (h : LevelName level text) :
      HasText (.logLevel level) text

/-- `arg` is the option, with its value behind an equals sign if it takes one. -/
inductive Writes (ch : Choice) : String → Prop
  | setting {text : String} (h : ch.HasText text) : Writes ch ("--" ++ ch.item.name ++ "=" ++ text)
  | switch {s : Switch} (h : ch.item = .inr s) : Writes ch ("--" ++ ch.item.name)

variable {ch a b : Choice} {text : String}

theorem Compatible.symm (h : a.Compatible b) : b.Compatible a := fun same =>
  same.trans (h same.symm)

theorem ReadFrom.valid (h : ch.ReadFrom text) : ch.Valid := by
  cases ch with
  | load s =>
    obtain ⟨p, -, parts⟩ := exists_parts h
    rw [Valid, ← parts.path]
    exact parts.path_ne
  | maxInstructions n => exact parseCount_eq_ok h
  | slowDown ms => exact (parseCount_eq_ok h).2
  | _ => trivial

theorem HasText.readFrom (h : ch.HasText text) (valid : ch.Valid) : ch.ReadFrom text := by
  cases h with
  | @load s first last hf hl =>
    have read : Option.Rel (fun text addr => parseAddress text = .ok addr) last s.last := by
      generalize s.last = addr at hl
      cases hl with
      | none => exact .none
      | some h => exact .some h.parseAddress
    have reads : SegmentParts.Reads ⟨s.path, first, last⟩ s := ⟨hf.parseAddress, read⟩
    exact SegmentParts.parseSegment_text reads rfl valid
  | start h => exact h.parseAddress
  | maxInstructions n => exact parseCount_toString valid.1 valid.2
  | slowDown ms => exact parseCount_toString (Nat.zero_le ms) valid
  | logLevel h => exact h.parseLevel

theorem HasText.item_eq (h : ch.HasText text) : ∃ s, ch.item = .inl s := by
  cases h <;> exact ⟨_, rfl⟩

theorem fourDigits_word (addr : Addr) : FourDigits addr (Hex.word addr) := rfl

theorem exists_writes (ch : Choice) : ∃ arg, ch.Writes arg := by
  cases ch with
  | load s =>
    have hl : Option.Rel (fun text addr => FourDigits addr text) (s.last.map Hex.word) s.last := by
      cases s.last with
      | none => exact .none
      | some addr => exact .some (fourDigits_word addr)
    exact ⟨_, .setting (.load (fourDigits_word s.first) hl)⟩
  | start addr => exact ⟨_, .setting (.start (fourDigits_word addr))⟩
  | maxInstructions n => exact ⟨_, .setting (.maxInstructions n)⟩
  | slowDown ms => exact ⟨_, .setting (.slowDown ms)⟩
  | logLevel level =>
    have name : LevelName level level.name := by
      cases level <;> rfl
    exact ⟨_, .setting (.logLevel name)⟩
  | debug => exact ⟨_, .switch rfl⟩
  | showZeroPage => exact ⟨_, .switch rfl⟩
  | step => exact ⟨_, .switch rfl⟩

end Choice

namespace Given

def add (g : Given) : Choice → Given
  | .load s => { g with segments := g.segments ++ [s] }
  | .start addr => { g with start := some addr }
  | .maxInstructions n => { g with maxInstructions := some n }
  | .slowDown ms => { g with slowDown := some ms }
  | .logLevel level => { g with logLevel := some level }
  | .debug => { g with debug := true }
  | .showZeroPage => { g with showZeroPage := true }
  | .step => { g with step := true }

def Has (g : Given) : Choice → Prop
  | .load s => s ∈ g.segments
  | .start addr => g.start = some addr
  | .maxInstructions n => g.maxInstructions = some n
  | .slowDown ms => g.slowDown = some ms
  | .logLevel level => g.logLevel = some level
  | .debug => g.debug = true
  | .showZeroPage => g.showZeroPage = true
  | .step => g.step = true

/-- No option has been given that `ch` would repeat. -/
def Lacks (g : Given) : Choice → Prop
  | .load _ => True
  | .start _ => g.start = none
  | .maxInstructions _ => g.maxInstructions = none
  | .slowDown _ => g.slowDown = none
  | .logLevel _ => g.logLevel = none
  | .debug => g.debug = false
  | .showZeroPage => g.showZeroPage = false
  | .step => g.step = false

variable {g g' : Given} {a b ch : Choice}

theorem lacks_default (ch : Choice) : ({} : Given).Lacks ch := by
  cases ch <;> trivial

theorem not_has_default (ch : Choice) : ¬ ({} : Given).Has ch := by
  cases ch <;> simp [Has]

theorem Lacks.add (h : g.Lacks b) (hab : a.Compatible b) : (g.add a).Lacks b := by
  cases b with
  | load s => trivial
  | _ =>
    -- an option repeats none but its like, and the like of one that is not an image is excluded
    cases a with
    | load s => exact h
    | _ => first | exact h | cases hab rfl

theorem has_add (h : g.Lacks a) : (g.add a).Has b ↔ g.Has b ∨ b = a := by
  cases a <;> cases b <;> simp_all [add, Has, Lacks] <;> exact eq_comm

theorem segments_add (g : Given) (ch : Choice) :
    (g.add ch).segments = g.segments ++ ch.segment?.toList := by
  cases ch <;> simp [add, Choice.segment?]

theorem value_eq_ok_iff {α : Type} {r : Except ValueError α} {v : α} :
    value r = .ok v ↔ r = .ok v := by
  cases r <;> simp [value, Except.mapError]

/-- A setting that may be given once is given if it has not been and its value can be read; `choice`
makes an option of a value. -/
theorem give_once {α : Type} {s : Setting} {taken : Bool} {text : String} {r : Except ValueError α}
    (choice : α → Choice) (item : ∀ ch : Choice, ch.item = .inl s ↔ ∃ v, choice v = ch)
    (read : ∀ v, (choice v).ReadFrom text ↔ r = .ok v)
    (fresh : ∀ v, g.Lacks (choice v) ↔ taken = false) :
    (do if taken then throw .repeated
        return g.add (choice (← value r)) : Except UsageError Given) = .ok g' ↔
      ∃ ch : Choice, ch.item = .inl s ∧ ch.ReadFrom text ∧ g.Lacks ch ∧ g.add ch = g' := by
  simp only [item, exists_exists_eq_and, read, fresh]
  cases taken with
  | true =>
    simp only [if_true, reduceCtorEq, false_and, and_false, exists_false, iff_false]
    nofun
  | false =>
    simp only [Bool.false_eq_true, if_false, true_and]
    refine bind_eq_ok_iff.trans (exists_congr fun v => ?_)
    rw [value_eq_ok_iff]
    exact and_congr_right fun _ => ⟨Except.ok.inj, congrArg Except.ok⟩

theorem give_eq_ok_iff {s : Setting} {text : String} : g.give s text = .ok g' ↔
    ∃ ch : Choice, ch.item = .inl s ∧ ch.ReadFrom text ∧ g.Lacks ch ∧ g.add ch = g' := by
  cases s with
  | load =>
    constructor
    · intro h
      obtain ⟨s, read, given⟩ := bind_eq_ok_iff.1 h
      cases given
      exact ⟨.load s, rfl, value_eq_ok_iff.1 read, trivial, rfl⟩
    · rintro ⟨ch, item, read, -, rfl⟩
      cases ch with
      | load s => exact bind_eq_ok_iff.2 ⟨s, value_eq_ok_iff.2 read, rfl⟩
      | _ => cases item
  | start =>
    refine give_once .start ?_ (fun _ => Iff.rfl) fun _ => ?_
    · intro ch
      cases ch <;> simp [Choice.item]
    · simp [Lacks]
  | maxInstructions =>
    refine give_once .maxInstructions ?_ (fun _ => Iff.rfl) fun _ => ?_
    · intro ch
      cases ch <;> simp [Choice.item]
    · simp [Lacks]
  | slowDown =>
    refine give_once .slowDown ?_ (fun _ => Iff.rfl) fun _ => ?_
    · intro ch
      cases ch <;> simp [Choice.item]
    · simp [Lacks]
  | logLevel =>
    refine give_once .logLevel ?_ (fun _ => Iff.rfl) fun _ => ?_
    · intro ch
      cases ch <;> simp [Choice.item]
    · simp [Lacks]

theorem turnOn_once {s : Switch} {taken : Bool} (choice : Choice)
    (item : ∀ ch : Choice, ch.item = .inr s ↔ ch = choice)
    (fresh : g.Lacks choice ↔ taken = false) :
    (if taken then .error .repeated else .ok (g.add choice) : Except UsageError Given) = .ok g' ↔
      ∃ ch : Choice, ch.item = .inr s ∧ g.Lacks ch ∧ g.add ch = g' := by
  simp only [item, exists_eq_left, fresh]
  cases taken <;> simp

theorem turnOn_eq_ok_iff {s : Switch} : g.turnOn s = .ok g' ↔
    ∃ ch : Choice, ch.item = .inr s ∧ g.Lacks ch ∧ g.add ch = g' := by
  cases s with
  | debug =>
    refine turnOn_once .debug ?_ Iff.rfl
    intro ch
    cases ch <;> simp [Choice.item]
  | showZeroPage =>
    refine turnOn_once .showZeroPage ?_ Iff.rfl
    intro ch
    cases ch <;> simp [Choice.item]
  | step =>
    refine turnOn_once .step ?_ Iff.rfl
    intro ch
    cases ch <;> simp [Choice.item]
  | help | version =>
    constructor
    · nofun
    · rintro ⟨ch, item, -⟩
      cases ch <;> cases item

theorem add_of_run {command : Command} (h : command.run g = .ok g') :
    ∃ ch : Choice, ch.Valid ∧ g.Lacks ch ∧ g.add ch = g' := by
  cases command with
  | setting s text =>
    obtain ⟨ch, -, read, fresh, added⟩ := give_eq_ok_iff.1 h
    exact ⟨ch, read.valid, fresh, added⟩
  | switch s =>
    obtain ⟨ch, item, fresh, added⟩ := turnOn_eq_ok_iff.1 h
    have valid : ch.Valid := by
      cases ch <;> trivial
    exact ⟨ch, valid, fresh, added⟩

end Given

theorem Choice.Writes.command {g : Given} {ch : Choice} {arg : String} (h : ch.Writes arg)
    (valid : ch.Valid) (fresh : g.Lacks ch) :
    ∃ command : Command, command.arg = arg ∧ command.run g = .ok (g.add ch) := by
  cases h with
  | @setting text h =>
    obtain ⟨s, item⟩ := h.item_eq
    refine ⟨.setting s text, by rw [Command.arg, item], ?_⟩
    exact Given.give_eq_ok_iff.2 ⟨ch, item, h.readFrom valid, fresh, rfl⟩
  | @switch s item =>
    refine ⟨.switch s, by rw [Command.arg, item], ?_⟩
    exact Given.turnOn_eq_ok_iff.2 ⟨ch, item, fresh, rfl⟩

end Mos6502.CommandLine
