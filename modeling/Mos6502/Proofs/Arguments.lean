import Mos6502.Proofs.OptionText

namespace Mos6502.CommandLine

namespace Reading

variable {r r' : Reading} {g : Given} {ch : Choice} {arg : String} {args : List String}
  {cs : List Char}

section Kept

variable {P : Given → Prop}
  (keep : ∀ (g g' : Given) (command : Command), command.run g = .ok g' → P g → P g')
include keep

theorem kept_settle (h : r.settle = .ok g) (hr : P r.given) : P g := by
  unfold settle at h
  split at h
  · cases h
    exact hr
  · cases h
  · rename_i s text _
    exact keep _ _ (.setting s text) h hr

theorem kept_give {s : Setting} {text : String} (h : r.give s text = .ok r') (hr : P r.given) :
    P r'.given := by
  obtain ⟨g, settled, rest⟩ := bind_eq_ok_iff.1 h
  obtain ⟨g', given, done⟩ := bind_eq_ok_iff.1 rest
  cases done
  exact keep _ _ (.setting s text) given (kept_settle keep settled hr)

theorem kept_turnOn {s : Switch} (h : r.turnOn s = .ok r') (hr : P r.given) : P r'.given := by
  obtain ⟨g, settled, rest⟩ := bind_eq_ok_iff.1 h
  obtain ⟨g', given, done⟩ := bind_eq_ok_iff.1 rest
  cases done
  exact keep _ _ (.switch s) given (kept_settle keep settled hr)

theorem kept_await {s : Setting} (h : r.await s = .ok r') (hr : P r.given) : P r'.given := by
  obtain ⟨g, settled, done⟩ := bind_eq_ok_iff.1 h
  cases done
  exact kept_settle keep settled hr

theorem kept_long (h : r.long cs = .ok r') (hr : P r.given) : P r'.given := by
  unfold long at h
  split at h
  split at h
  · exact kept_give keep h hr
  · exact kept_await keep h hr
  · exact kept_turnOn keep h hr
  · cases h
  · cases h

theorem kept_shorts (h : r.shorts cs = .ok r') (hr : P r.given) : P r'.given := by
  induction cs generalizing r with
  | nil =>
    cases h
    exact hr
  | cons c cs ih =>
    rw [shorts] at h
    split at h
    · split at h
      · exact kept_await keep h hr
      · exact kept_give keep h hr
      · exact kept_give keep h hr
    · obtain ⟨r₁, turned, rest⟩ := bind_eq_ok_iff.1 h
      exact ih rest (kept_turnOn keep turned hr)
    · cases h

omit keep in
theorem kept_plain {text : String} (h : r.plain text = .ok r') (hr : P r.given) : P r'.given := by
  unfold plain at h
  split at h
  · cases h
    exact hr
  · cases h

theorem kept_all (h : r.all args = .ok r') (hr : P r.given) : P r'.given := by
  induction args generalizing r with
  | nil =>
    cases h
    exact hr
  | cons arg args ih =>
    rw [all] at h
    split at h
    -- two dashes alone end the list
    · split at h
      · cases h
        exact hr
      · cases h
    · obtain ⟨r₁, read, rest⟩ := bind_eq_ok_iff.1 h
      exact ih rest (kept_long keep read hr)
    · obtain ⟨r₁, read, rest⟩ := bind_eq_ok_iff.1 h
      exact ih rest (kept_shorts keep read hr)
    · obtain ⟨r₁, read, rest⟩ := bind_eq_ok_iff.1 h
      exact ih rest (kept_plain read hr)

end Kept

theorem all_dashes (h : arg.toList = '-' :: '-' :: cs) (hc : cs ≠ []) :
    r.all (arg :: args) = r.long cs >>= fun r => r.all args := by
  rw [all, h]
  cases cs with
  | nil => exact absurd rfl hc
  | cons c cs => rfl

/-- A value may hold equals signs: it begins behind the first one. -/
theorem long_setting (s : Setting) (text : String) :
    r.long ((Item.name (.inl s)).toList ++ '=' :: text.toList) = r.give s text := by
  simp only [long, splitFirst_append _ (Item.not_mem_name (.inl s)), String.ofList_toList,
    Item.long?_name]

theorem long_switch (s : Switch) : r.long (Item.name (.inr s)).toList = r.turnOn s := by
  simp only [long, splitFirst_eq_none_iff.2 (Item.not_mem_name (.inr s)), String.ofList_toList,
    Item.long?_name]

theorem all_arg (command : Command) :
    all { given := g } (command.arg :: args) =
      command.run g >>= fun g => all { given := g } args := by
  cases command with
  | setting s text =>
    have chars : (Command.setting s text).arg.toList =
        '-' :: '-' :: ((Item.name (.inl s)).toList ++ '=' :: text.toList) := by
      simp [Command.arg]
    have given : give { given := g } s text = g.give s text >>= fun g => .ok { given := g } := rfl
    rw [all_dashes chars (by simp), long_setting, given, bind_assoc]
    rfl
  | switch s =>
    have chars : (Command.switch s).arg.toList = '-' :: '-' :: (Item.name (.inr s)).toList := by
      simp [Command.arg]
    have turned : turnOn { given := g } s = g.turnOn s >>= fun g => .ok { given := g } := rfl
    rw [all_dashes chars (by simpa using Item.name_ne _), long_switch, turned, bind_assoc]
    rfl

theorem all_args {commands : List Command} {g' : Given}
    (h : commands.foldlM Command.run g = .ok g') :
    all { given := g } (commands.map Command.arg) = .ok { given := g' } := by
  induction commands generalizing g with
  | nil =>
    cases h
    rfl
  | cons command commands ih =>
    obtain ⟨g₁, taken, rest⟩ := bind_eq_ok_iff.1 h
    rw [List.map_cons, all_arg, taken]
    exact ih rest

end Reading

theorem foldlM_run_concat {commands : List Command} {g g' : Given}
    (h : commands.foldlM Command.run {} = .ok g) {command : Command} (taken : command.run g = .ok g') :
    (commands ++ [command]).foldlM Command.run {} = .ok g' := by
  rw [List.foldlM_append, h]
  exact bind_eq_ok_iff.2 ⟨g, rfl, bind_eq_ok_iff.2 ⟨g', taken, rfl⟩⟩

theorem lawfulReader_given : LawfulReader given where
  long h := by
    rw [given, Reading.all_args h]
    rfl
  others h := by
    obtain ⟨r, read, settled⟩ := bind_eq_ok_iff.1 h
    have keep (g g' : Given) (command : Command) (taken : command.run g = .ok g')
        (sofar : ∃ commands : List Command, commands.foldlM Command.run {} = .ok g) :
        ∃ commands : List Command, commands.foldlM Command.run {} = .ok g' := by
      obtain ⟨commands, ran⟩ := sofar
      exact ⟨commands ++ [command], foldlM_run_concat ran taken⟩
    exact Reading.kept_settle keep settled (Reading.kept_all keep read ⟨[], rfl⟩)

namespace Given

variable {g : Given} {choices : List Choice}

theorem has_foldl_add (apart : choices.Pairwise Choice.Compatible)
    (fresh : ∀ ch ∈ choices, g.Lacks ch) (b : Choice) :
    (choices.foldl add g).Has b ↔ g.Has b ∨ b ∈ choices := by
  induction choices generalizing g with
  | nil => simp
  | cons ch choices ih =>
    obtain ⟨apart_ch, apart⟩ := List.pairwise_cons.1 apart
    rw [List.forall_mem_cons] at fresh
    rw [List.foldl_cons, ih apart fun b hb => (fresh.2 b hb).add (apart_ch b hb), has_add fresh.1,
      List.mem_cons, or_assoc]

theorem segments_foldl_add (choices : List Choice) :
    (choices.foldl add g).segments = g.segments ++ choices.filterMap Choice.segment? := by
  induction choices generalizing g with
  | nil => simp
  | cons ch choices ih =>
    rw [List.foldl_cons, ih, segments_add, List.append_assoc, List.filterMap_cons]
    cases ch.segment? <;> rfl

def Sound (g : Given) : Prop := ∀ ch, g.Has ch → ch.Valid

theorem sound_default : ({} : Given).Sound := fun ch h => absurd h (not_has_default ch)

theorem Sound.add {g : Given} {ch : Choice} (valid : ch.Valid) (fresh : g.Lacks ch)
    (h : g.Sound) : (g.add ch).Sound := by
  intro b hb
  rcases (has_add fresh).1 hb with old | rfl
  · exact h b old
  · exact valid

end Given

theorem Given.sound_of_run {commands : List Command} {g g' : Given}
    (h : commands.foldlM Command.run g = .ok g') (sound : g.Sound) : g'.Sound := by
  induction commands generalizing g with
  | nil =>
    cases h
    exact sound
  | cons command commands ih =>
    obtain ⟨g₁, taken, rest⟩ := bind_eq_ok_iff.1 h
    obtain ⟨ch, valid, fresh, rfl⟩ := add_of_run taken
    exact ih rest (sound.add valid fresh)

theorem Given.run_written {g : Given} {choices : List Choice} {args : List String}
    (h : List.Forall₂ Choice.Writes choices args) (valid : ∀ ch ∈ choices, ch.Valid)
    (apart : choices.Pairwise Choice.Compatible) (fresh : ∀ ch ∈ choices, g.Lacks ch) :
    ∃ commands : List Command, commands.map Command.arg = args ∧
      commands.foldlM Command.run g = .ok (choices.foldl add g) := by
  induction h generalizing g with
  | nil => exact ⟨[], rfl, rfl⟩
  | @cons ch arg choices args written _ ih =>
    obtain ⟨apart_ch, apart⟩ := List.pairwise_cons.1 apart
    rw [List.forall_mem_cons] at valid fresh
    obtain ⟨command, rfl, taken⟩ := written.command valid.1 fresh.1
    -- what is still to come has not been given by `ch` either
    obtain ⟨commands, rfl, ran⟩ :=
      ih valid.2 apart fun b hb => (fresh.2 b hb).add (apart_ch b hb)
    exact ⟨command :: commands, rfl, bind_eq_ok_iff.2 ⟨_, taken, ran⟩⟩

namespace Config

/-- What options can say of a configuration: there is an image, every path has a name, and the numbers
are those of sixty-four bits. -/
structure Valid (c : Config) : Prop where
  segments : c.segments ≠ []
  paths : ∀ s ∈ c.segments, s.path ≠ ""
  maxInstructions : ∀ n, c.maxInstructions = some n → 1 ≤ n ∧ n < 2 ^ 64
  slowDown : c.slowDown < 2 ^ 64

def debugChoices : Option DebugSettings → List Choice
  | none => []
  | some d =>
    .debug :: (if d.showZeroPage then [.showZeroPage] else []) ++ if d.step then [.step] else []

/-- The options beside the images. The pause and the log level may be left out where they are what they
would be without. -/
def settings (c : Config) (keepSlowDown keepLogLevel : Bool) : List Choice :=
  c.start.toList.map .start ++ c.maxInstructions.toList.map .maxInstructions ++
    debugChoices c.debug ++
    (if c.slowDown = 0 ∧ !keepSlowDown then [] else [.slowDown c.slowDown]) ++
    if c.logLevel = .warn ∧ !keepLogLevel then [] else [.logLevel c.logLevel]

def choices (c : Config) (keepSlowDown keepLogLevel : Bool) : List Choice :=
  c.segments.map .load ++ c.settings keepSlowDown keepLogLevel

/-- `args` are options that make up `c`, in any order but for the images among themselves. -/
def WrittenAs (c : Config) (args : List String) : Prop :=
  ∃ keepSlowDown keepLogLevel, ∃ choices : List Choice,
    choices.Perm (c.choices keepSlowDown keepLogLevel) ∧
    choices.filterMap Choice.segment? = c.segments ∧ List.Forall₂ Choice.Writes choices args

variable {c : Config} {keepSlowDown keepLogLevel : Bool}

def settingItems : List Item :=
  [.inl .start, .inl .maxInstructions, .inr .debug, .inr .showZeroPage, .inr .step, .inl .slowDown,
    .inl .logLevel]

theorem items_settings :
    ((c.settings keepSlowDown keepLogLevel).map Choice.item).Sublist settingItems := by
  have start : ((c.start.toList.map Choice.start).map Choice.item).Sublist [.inl .start] := by
    cases c.start <;> simp [Choice.item]
  have limit : ((c.maxInstructions.toList.map Choice.maxInstructions).map Choice.item).Sublist
      [.inl .maxInstructions] := by
    cases c.maxInstructions <;> simp [Choice.item]
  have debug : ((debugChoices c.debug).map Choice.item).Sublist
      [.inr .debug, .inr .showZeroPage, .inr .step] := by
    rcases c.debug with _ | ⟨_ | _, _ | _⟩ <;> decide
  have optional (left : Prop) [Decidable left] (ch : Choice) :
      ((if left then [] else [ch]).map Choice.item).Sublist [ch.item] := by
    split <;> simp
  simp only [settings, List.map_append]
  exact (((start.append limit).append debug).append (optional _ _)).append (optional _ _)

theorem compatible_choices :
    (c.choices keepSlowDown keepLogLevel).Pairwise Choice.Compatible := by
  -- beside the images a configuration lists no item twice, whichever it leaves out
  have listed : settingItems.Pairwise (fun i j : Item => i = j → i = .inl .load) := by decide
  have apart : ((c.settings keepSlowDown keepLogLevel).map Choice.item).Pairwise
      (fun i j : Item => i = j → i = .inl .load) := listed.sublist items_settings
  refine List.pairwise_append.2 ⟨?_, apart.of_map Choice.item fun _ _ h => h, ?_⟩
  · exact List.pairwise_map.2 (List.pairwise_of_forall fun _ _ _ => rfl)
  · intro i hi _ _ _
    obtain ⟨-, -, rfl⟩ := List.mem_map.1 hi
    rfl

theorem segments_choices :
    (c.choices keepSlowDown keepLogLevel).filterMap Choice.segment? = c.segments := by
  have loads : (c.segments.map Choice.load).filterMap Choice.segment? = c.segments := by
    rw [List.filterMap_map]
    exact List.filterMap_some
  have rest : (c.settings keepSlowDown keepLogLevel).filterMap Choice.segment? = [] := by
    rw [List.filterMap_eq_nil_iff]
    intro ch mem
    have listed : ch.item ∈ settingItems := items_settings.subset (List.mem_map_of_mem mem)
    cases ch with
    | load s => simp [Choice.item, settingItems] at listed
    | _ => rfl
  rw [choices, List.filterMap_append, loads, rest, List.append_nil]

def Calls (c : Config) (keepSlowDown keepLogLevel : Bool) : Choice → Prop
  | .load s => s ∈ c.segments
  | .start addr => c.start = some addr
  | .maxInstructions n => c.maxInstructions = some n
  | .slowDown ms => (c.slowDown = 0 → keepSlowDown = true) ∧ ms = c.slowDown
  | .logLevel level => (c.logLevel = .warn → keepLogLevel = true) ∧ level = c.logLevel
  | .debug => c.debug.isSome = true
  | .showZeroPage => ∃ d, c.debug = some d ∧ d.showZeroPage = true
  | .step => ∃ d, c.debug = some d ∧ d.step = true

theorem mem_debugChoices {debug : Option DebugSettings} {ch : Choice} : ch ∈ debugChoices debug ↔
    ch = .debug ∧ debug.isSome = true ∨
    ch = .showZeroPage ∧ (∃ d, debug = some d ∧ d.showZeroPage = true) ∨
    ch = .step ∧ ∃ d, debug = some d ∧ d.step = true := by
  rcases debug with _ | ⟨_ | _, _ | _⟩ <;> simp [debugChoices]

theorem mem_choices {ch : Choice} :
    ch ∈ c.choices keepSlowDown keepLogLevel ↔ c.Calls keepSlowDown keepLogLevel ch := by
  simp only [choices, settings, List.mem_append, mem_debugChoices]
  cases ch <;> simp [Calls]

theorem valid_choices (h : c.Valid) : ∀ ch ∈ c.choices keepSlowDown keepLogLevel, ch.Valid := by
  intro ch mem
  have called := mem_choices.1 mem
  cases ch with
  | load s => exact h.paths s called
  | maxInstructions n => exact h.maxInstructions n called
  | slowDown ms => exact called.2 ▸ h.slowDown
  | _ => trivial

/-- What may be left out only where it is the default comes to the same, left out or not. -/
theorem getD_eq_of_iff {α : Type} {o : Option α} {v default : α} {keep : Bool}
    (h : ∀ w, o = some w ↔ (v = default → keep = true) ∧ w = v) : o.getD default = v := by
  cases o with
  | some w => exact ((h w).1 rfl).2
  | none =>
    by_contra differs
    have given := (h v).2 ⟨fun same => absurd same.symm differs, rfl⟩
    cases given

theorem config_eq {g : Given} (h : c.segments ≠ []) (segments : g.segments = c.segments)
    (has : ∀ ch, g.Has ch ↔ c.Calls keepSlowDown keepLogLevel ch) : g.config = .ok c := by
  have start : g.start = c.start := Option.ext fun addr => has (.start addr)
  have limit : g.maxInstructions = c.maxInstructions :=
    Option.ext fun n => has (.maxInstructions n)
  have slowDown : g.slowDown.getD 0 = c.slowDown := getD_eq_of_iff fun ms => has (.slowDown ms)
  have logLevel : g.logLevel.getD .warn = c.logLevel :=
    getD_eq_of_iff fun level => has (.logLevel level)
  have debug : g.debug = c.debug.isSome := Bool.eq_iff_iff.2 (has .debug)
  have zeroPage := has .showZeroPage
  have step := has .step
  obtain ⟨_, _, _, settings, _, _⟩ := c
  subst segments start limit slowDown logLevel
  cases settings with
  | none => simp_all [Given.config, Calls, Given.Has]
  | some d =>
    obtain ⟨z, s⟩ := d
    simp_all [Given.config, Calls, Given.Has]

theorem WrittenAs.read {read : List String → Except UsageError Given} {args : List String}
    (h : c.WrittenAs args) (lawful : LawfulReader read) (valid : c.Valid) :
    ∃ g, read args = .ok g ∧ g.config = .ok c := by
  obtain ⟨keepSlowDown, keepLogLevel, choices, order, images, written⟩ := h
  have allowed : ∀ ch ∈ choices, ch.Valid := fun ch mem =>
    valid_choices valid ch (order.mem_iff.1 mem)
  have apart : choices.Pairwise Choice.Compatible :=
    (order.pairwise_iff Choice.Compatible.symm).2 compatible_choices
  have fresh : ∀ ch ∈ choices, ({} : Given).Lacks ch := fun ch _ => Given.lacks_default ch
  obtain ⟨commands, rfl, taken⟩ := Given.run_written written allowed apart fresh
  have segments : (choices.foldl Given.add {}).segments = c.segments := by
    rw [Given.segments_foldl_add, images]
    rfl
  have has (ch : Choice) : (choices.foldl Given.add {}).Has ch ↔
      c.Calls keepSlowDown keepLogLevel ch := by
    rw [Given.has_foldl_add apart fresh, or_iff_right (Given.not_has_default ch), order.mem_iff,
      mem_choices]
  exact ⟨_, lawful.long taken, config_eq valid.segments segments has⟩

theorem exists_writtenAs (c : Config) : ∃ args, c.WrittenAs args := by
  choose write writes using Choice.exists_writes
  refine ⟨(c.choices true true).map write, true, true, _, .refl _, segments_choices, ?_⟩
  exact List.forall₂_map_right_iff.2 (List.forall₂_same.2 fun ch _ => writes ch)

theorem of_config {g : Given} (sound : g.Sound) (h : g.config = .ok c) :
    c.Valid ∧ (g.showZeroPage ∨ g.step → g.debug) := by
  unfold Given.config at h
  split at h
  · cases h
  · rename_i complete
    rw [not_or] at complete
    cases h
    refine ⟨⟨?_, ?_, ?_, ?_⟩, ?_⟩
    · simpa using complete.1
    · exact fun s mem => sound (.load s) mem
    · exact fun n limit => sound (.maxInstructions n) limit
    · cases hg : g.slowDown with
      | none => exact Nat.two_pow_pos 64
      | some ms => exact sound (.slowDown ms) hg
    · exact fun refined => by_contra fun off => complete.2 ⟨refined, off⟩

end Config

/-- Whichever lawful reader reads the arguments, a configuration is read back from the options that it is
written as, in whatever order they stand, and every configuration can be written so. Whatever arguments
are accepted, there is an image among them, the limit is one instruction at least, and nothing refines
debugging unless it is on. -/
theorem config_is_read_back : LawfulReader given ∧ ∀ read, LawfulReader read →
    (∀ c : Config, c.Valid → ∀ args, c.WrittenAs args → read args >>= Given.config = .ok c) ∧
    (∀ c : Config, ∃ args, c.WrittenAs args) ∧
    ∀ args c, read args >>= Given.config = .ok c → c.Valid ∧ ∃ g, read args = .ok g ∧
      g.config = .ok c ∧ (g.showZeroPage ∨ g.step → g.debug) := by
  refine ⟨lawfulReader_given, fun read lawful => ⟨?_, Config.exists_writtenAs, ?_⟩⟩
  · intro c valid args written
    obtain ⟨g, taken, config⟩ := written.read lawful valid
    exact bind_eq_ok_iff.2 ⟨g, taken, config⟩
  · intro args c h
    obtain ⟨g, taken, config⟩ := bind_eq_ok_iff.1 h
    obtain ⟨commands, ran⟩ := lawful.others taken
    obtain ⟨valid, refined⟩ := Config.of_config (Given.sound_of_run ran Given.sound_default) config
    exact ⟨valid, g, taken, config, refined⟩

/-- Paths that look like options or like addresses. -/
theorem odd_paths_are_read_back :
    parse ["--step", "--load=a@b:c=-@0200:02fF", "--debug", "--start=0200", "--load=--step@FFFC"] =
      .ok {
        segments := [⟨"a@b:c=-", 0x200, some 0x2FF⟩, ⟨"--step", 0xFFFC, none⟩]
        start := some 0x200
        debug := some ⟨false, true⟩ } := by
  have last : FourDigits 0x2FF "02fF" := by
    rw [FourDigits]
    decide
  have first : Choice.HasText (.load ⟨"a@b:c=-", 0x200, some 0x2FF⟩) "a@b:c=-@0200:02fF" :=
    @Choice.HasText.load _ "0200" (some "02fF") rfl (.some last)
  have second : Choice.HasText (.load ⟨"--step", 0xFFFC, none⟩) "--step@FFFC" :=
    @Choice.HasText.load _ "FFFC" none rfl .none
  have start : Choice.HasText (.start 0x200) "0200" := .start rfl
  have written : List.Forall₂ Choice.Writes
      [.step, .load ⟨"a@b:c=-", 0x200, some 0x2FF⟩, .debug, .start 0x200,
        .load ⟨"--step", 0xFFFC, none⟩]
      ["--step", "--load=a@b:c=-@0200:02fF", "--debug", "--start=0200", "--load=--step@FFFC"] :=
    .cons (.switch rfl) (.cons (.setting first) (.cons (.switch rfl)
      (.cons (.setting start) (.cons (.setting second) .nil))))
  obtain ⟨lawful, readBack⟩ := config_is_read_back
  exact (readBack given lawful).1 _ ⟨by decide, by decide, by rintro _ ⟨⟩, by decide⟩ _
    ⟨false, false, _, by decide, rfl, written⟩

end Mos6502.CommandLine
