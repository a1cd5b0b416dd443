import TapeMachine.Proofs.Command.Channel
import TapeMachine.Proofs.Settings.Unread
set_option autoImplicit false

/-!
# Command: where the settings of a run come from

Each setting of a run can be told on the command line, by a variable and in the settings file, and the
first of these that tells it is listened to.  `Resolved` says so for one setting alone.  The command
line tells what its words spell, in any of the ways to spell it (`RunOptions.Requests`).  A variable
whose text stands for no value tells nothing.  In the settings file the last assignment is the one that
counts: if it stands for no value, the file tells nothing, whatever is assigned further up.

A setting is told by its own option, variable and key alone, so whatever is told about another one
leaves it as it is (`value?_settings_congr`).

Main statement: a run has the settings that are resolved for it (`settings_resolved`).
-/

namespace TapeMachine

namespace Settings.Key

/-- The variable that sets it. -/
def variableName : Key → String
  | eof => eofVariable
  | maxSteps => maxStepsVariable
  | timeoutMs => timeoutVariable

/-- The value that the text of its variable stands for. -/
def readVariable? : (k : Key) → String → Option k.Value
  | eof, text => (EofPolicy.parse text.toList).toOption
  | maxSteps, text => variableWord? text
  | timeoutMs, text => variableWord? text

/-- The option that sets it. -/
def given : (k : Key) → k.Value → Command.Given
  | eof, policy => .eof policy
  | maxSteps, n => .maxSteps n
  | timeoutMs, ms => .timeout ms

theorem variableName_injective : Function.Injective variableName := by
  intro k k' h
  cases k <;> cases k' <;> first | rfl | exact absurd h (by decide)

theorem name_injective : Function.Injective name := by
  intro k k' h
  cases k <;> cases k' <;> first | rfl | exact absurd h (by decide)

end Settings.Key

namespace Command

open Settings (Key LastAssigned Assignment)

/-! ## What is told about one setting -/

/-- What the command line tells. -/
def RunOptions.given? (o : RunOptions) : (k : Key) → Option k.Value
  | .eof => o.eof
  | .maxSteps => o.maxSteps
  | .timeoutMs => o.timeoutMs

namespace World

/-- What the variable tells. -/
def exported? (world : World) (k : Key) : Option k.Value :=
  (world.getVariable k.variableName).run.bind k.readVariable?

/-- The text of the settings file, if there is such a file and if it is text. -/
def settingsText? (world : World) : Option String :=
  world.settingsFile?.bind fun path =>
    (world.readFile path).run.toOption.bind String.fromUTF8?

/-- The settings file tells this value. -/
def Declares (world : World) (k : Key) (v : k.Value) : Prop :=
  ∃ text ∈ world.settingsText?, ∃ value,
    LastAssigned (Settings.lines text.toList) k.name.toList value ∧ k.read? value = some v

/-- The same world, but for the text of one variable. -/
def setVariable (world : World) (name : String) (text? : Option String) : World :=
  { world with
    getVariable := fun key => if key = name then text? else (world.getVariable key).run }

end World

/-- The value that a setting has in the end. -/
inductive Resolved (world : World) (o : RunOptions) (k : Key) : Option k.Value → Prop
  /-- The command line tells. -/
  | given {v : k.Value} (hoption : o.given? k = some v) : Resolved world o k (some v)
  /-- The variable tells. -/
  | exported {v : k.Value} (hoption : o.given? k = none) (hvariable : world.exported? k = some v) :
    Resolved world o k (some v)
  /-- The settings file tells. -/
  | declared {v : k.Value} (hoption : o.given? k = none) (hvariable : world.exported? k = none)
    (hfile : world.Declares k v) : Resolved world o k (some v)
  /-- Nothing tells. -/
  | initial (hoption : o.given? k = none) (hvariable : world.exported? k = none)
    (hfile : ∀ v, ¬world.Declares k v) : Resolved world o k k.initial?

section

variable {world world' : World} {o o' : RunOptions} {k k' : Key}

/-! ## The settings file -/

theorem run_loadSettingsFile_eq (world : World) :
    (loadSettingsFile world).run =
      (world.settingsText?.map fun text => Settings.ofFile text.toList).getD Settings.default := by
  rw [run_loadSettingsFile, World.settingsText?]
  cases world.settingsFile? with
  | none => rfl
  | some path =>
    rw [Option.bind_some]
    simp only
    cases (world.readFile path).run with
    | error fault => rfl
    | ok bytes =>
      simp only [Except.toOption, Option.bind_some]
      cases String.fromUTF8? bytes <;> rfl

/-- What the settings file tells, by reading it. -/
def World.declared? (world : World) (k : Key) : Option k.Value :=
  world.settingsText?.bind fun text =>
    ((Settings.Reading.ofText text.toList).value? k.name).bind k.read?

theorem World.declared?_eq_some_iff {v : k.Value} :
    world.declared? k = some v ↔ world.Declares k v := by
  simp only [declared?, Declares, Option.bind_eq_some_iff, Option.mem_def,
    Settings.Reading.value?_ofText_eq_some_iff]

theorem World.declared?_eq_none_iff : world.declared? k = none ↔ ∀ v, ¬world.Declares k v := by
  simp only [Option.eq_none_iff_forall_ne_some, ne_eq, declared?_eq_some_iff]

theorem value?_loadSettingsFile (world : World) (k : Key) :
    (loadSettingsFile world).run.value? k = (world.declared? k).or k.initial? := by
  rw [run_loadSettingsFile_eq, World.declared?]
  cases world.settingsText? with
  | none => cases k <;> rfl
  | some text => exact Settings.value?_ofFile text.toList k

/-! ## All that is told -/

/-- A setting is the first thing that is told about it. -/
theorem value?_settings (world : World) (o : RunOptions) (k : Key) :
    (o.settings world).value? k =
      (o.given? k).or ((world.exported? k).or ((world.declared? k).or k.initial?)) := by
  rw [← value?_loadSettingsFile]
  cases k with
  | eof =>
    calc some (o.eof.getD (loadSettings world).run.eof)
        = o.eof.or (some (loadSettings world).run.eof) := Option.or_some.symm
      _ = o.eof.or ((world.exported? .eof).or (some (loadSettingsFile world).run.eof)) :=
          congrArg _ Option.or_some.symm
  | maxSteps => rfl
  | timeoutMs => rfl

theorem resolved_iff {v? : Option k.Value} :
    Resolved world o k v? ↔ (o.settings world).value? k = v? := by
  rw [value?_settings]
  constructor
  · intro h
    cases h with
    | given hoption => rw [hoption, Option.some_or]
    | exported hoption hvariable => rw [hoption, hvariable, Option.none_or, Option.some_or]
    | declared hoption hvariable hfile =>
      rw [hoption, hvariable, World.declared?_eq_some_iff.2 hfile]
      rfl
    | initial hoption hvariable hfile =>
      rw [hoption, hvariable, World.declared?_eq_none_iff.2 hfile]
      rfl
  · rintro rfl
    cases hoption : o.given? k with
    | some v => exact .given hoption
    | none =>
      cases hvariable : world.exported? k with
      | some v => exact .exported hoption hvariable
      | none =>
        cases hfile : world.declared? k with
        | some v => exact .declared hoption hvariable (World.declared?_eq_some_iff.1 hfile)
        | none => exact .initial hoption hvariable (World.declared?_eq_none_iff.1 hfile)

/-- A setting depends on nothing but what is told about it. -/
theorem value?_settings_congr (hoption : o'.given? k = o.given? k)
    (hvariable : world'.exported? k = world.exported? k)
    (hfile : world'.declared? k = world.declared? k) :
    (o'.settings world').value? k = (o.settings world).value? k := by
  rw [value?_settings, value?_settings, hoption, hvariable, hfile]

/-! ## What is told about another setting -/

theorem RunOptions.given?_add_given (hne : k' ≠ k) (o : RunOptions) (v : k'.Value) :
    (o.add (k'.given v)).given? k = o.given? k := by
  cases k <;> cases k' <;> first | rfl | exact absurd rfl hne

theorem World.run_getVariable_setVariable {name name' : String} (h : name ≠ name')
    (text? : Option String) :
    ((world.setVariable name' text?).getVariable name).run = (world.getVariable name).run :=
  if_neg h

theorem World.exported?_setVariable (hne : k' ≠ k) (world : World) (text? : Option String) :
    (world.setVariable k'.variableName text?).exported? k = world.exported? k := by
  have hname : k.variableName ≠ k'.variableName :=
    fun h => hne (Key.variableName_injective h).symm
  rw [exported?, exported?, run_getVariable_setVariable hname]

/-- The variables that set something do not say where the settings file is. -/
theorem World.settingsFile?_setVariable (world : World) (k : Key) (text? : Option String) :
    (world.setVariable k.variableName text?).settingsFile? = world.settingsFile? := by
  have hconfig : "XDG_CONFIG_HOME" ≠ k.variableName := by cases k <;> decide
  have hhome : "HOME" ≠ k.variableName := by cases k <;> decide
  unfold settingsFile?
  rw [run_getVariable_setVariable hconfig, run_getVariable_setVariable hhome]

theorem World.declared?_setVariable (world : World) (k k' : Key) (text? : Option String) :
    (world.setVariable k'.variableName text?).declared? k = world.declared? k := by
  rw [declared?, settingsText?, settingsFile?_setVariable]
  rfl

theorem World.declared?_eq_of_unread {text text' : String} {front block behind : List (List Char)}
    (htext : world.settingsText? = some text) (htext' : world'.settingsText? = some text')
    (hlines : Text.pieces '\n' text.toList = front ++ behind)
    (hlines' : Text.pieces '\n' text'.toList = front ++ block ++ behind)
    (h : Settings.Unread k front behind block) : world'.declared? k = world.declared? k := by
  rw [declared?, declared?, htext, htext', Option.bind_some, Option.bind_some,
    h.value?_ofText_eq hlines hlines']

/-- A line for one setting is not looked at for another one. -/
theorem unread_of_assignment {line value : List Char} (hne : k' ≠ k)
    (h : Assignment (Text.trim line) k'.name.toList value) (front behind : List (List Char)) :
    Settings.Unread k front behind [line] := by
  refine .otherKey h.not_isHeader fun value' h' => hne (Key.name_injective (String.toList_inj.1 ?_))
  have heq := (Settings.assignment?_eq_some_iff.2 h).symm.trans
    (Settings.assignment?_eq_some_iff.2 h')
  exact (Prod.mk.inj (Option.some.inj heq)).1

/-! ## The run -/

/-- The command line tells what was given to the subcommand. -/
theorem RunOptions.given?_eq_some_iff {v : k.Value} : o.given? k = some v ↔ o.Has (k.given v) := by
  cases k <;> rfl

/-- What the words tell about a setting is listened to. -/
theorem RunOptions.value?_settings_of_has (world : World) {v : k.Value} (h : o.Has (k.given v)) :
    (o.settings world).value? k = some v :=
  resolved_iff.1 (.given (given?_eq_some_iff.2 h))

/-- A setting depends on no other words than those that tell it. -/
theorem value?_settings_eq_of_has_iff (world : World)
    (h : ∀ v, o'.Has (k.given v) ↔ o.Has (k.given v)) :
    (o'.settings world).value? k = (o.settings world).value? k :=
  value?_settings_congr (Option.ext fun v => by simp only [RunOptions.given?_eq_some_iff, h]) rfl rfl

/-- A requested run of a program starts with the settings of its options. -/
theorem RunOptions.Requests.run_prepare_of_accepted {words : List String} {text : List Char}
    {p : Program} {input : List UInt8} (h : o.Requests world words text input)
    (hhelp : o.help = false) (hp : Program.ofText text = .ok p) (name : String) :
    (prepare world name ("run" :: words)).run = .ok (o.job world name text p input) := by
  rw [h.run_prepare, hhelp, hp]
  rfl

/-- A run that starts was ready. -/
theorem exists_ready_of_run_prepare {name : String} {words : List String} {job : Job}
    (hparse : Invocation.parse words = .ok ⟨false, some (.run o)⟩)
    (h : (prepare world name words).run = .ok job) :
    ∃ text p input, o.Ready world text p input ∧ job = o.job world name text p input := by
  rw [prepare_eq_run hparse] at h
  cases hhelp : o.help with
  | true =>
    rw [prepareRun, if_pos hhelp] at h
    cases h
  | false =>
    rcases run_prepareRun_cases world name hhelp with
      ⟨-, _, hexit⟩ | ⟨-, -, _, hexit⟩ | ⟨text, p, input, hready, hjob⟩
    · cases hexit.symm.trans h
    · cases hexit.symm.trans h
    · exact ⟨text, p, input, hready, Except.ok.inj (h.symm.trans hjob)⟩

/-- A run starts exactly if the words ask for one and all that it asks for is there. -/
theorem run_prepare_eq_ok_iff {name : String} {words : List String} {job : Job} :
    (prepare world name words).run = .ok job ↔
      ∃ o text p input, Invocation.parse words = .ok ⟨false, some (.run o)⟩ ∧
        o.Ready world text p input ∧ job = o.job world name text p input := by
  constructor
  · intro h
    cases hparse : Invocation.parse words with
    | error fault => cases (prepare_of_parse_error hparse).symm.trans h
    | ok i =>
      rcases i with ⟨_ | _, _ | o | c⟩
      · cases (prepare_of_no_command hparse).symm.trans h
      · obtain ⟨text, p, input, hready, hjob⟩ := exists_ready_of_run_prepare hparse h
        exact ⟨o, text, p, input, rfl, hready, hjob⟩
      · cases (prepare_eq_check hparse).symm.trans h
      all_goals cases (prepare_of_help hparse).symm.trans h
  · rintro ⟨o, text, p, input, hparse, hready, rfl⟩
    exact hready.run_prepare hparse

/-- Each setting of a run is the first thing that is told about it.

* The command line comes before the variable, the variable before the last assignment in the settings
  file, and this before the initial value.
* A run that starts has the settings of its options.
* So has a run whose options are spelled on the command line, and a setting that is spelled there has
  the value that it is spelled with, whatever the variables and the settings file tell.
* Two command lines that tell the same about one setting agree on it, whatever else they tell.
* An option, a variable or a line for one setting leaves the other ones as they are. -/
theorem settings_resolved (world : World) :
    (∀ (o : RunOptions) (k : Key) (v? : Option k.Value),
      Resolved world o k v? ↔ (o.settings world).value? k = v?) ∧
    (∀ (name : String) (words : List String) (job : Job),
      (prepare world name words).run = .ok job ↔
        ∃ o text p input, Invocation.parse words = .ok ⟨false, some (.run o)⟩ ∧
          o.Ready world text p input ∧
          job = ⟨name, text, p, o.settings world, input, o.debug⟩) ∧
    (∀ (name : String) (o : RunOptions) (words : List String) (text : List Char) (p : Program)
      (input : List UInt8), o.Requests world words text input → o.help = false →
      Program.ofText text = .ok p →
      (prepare world name ("run" :: words)).run =
        .ok ⟨name, text, p, o.settings world, input, o.debug⟩ ∧
      ∀ (k : Key) (v : k.Value), o.Has (k.given v) → (o.settings world).value? k = some v) ∧
    (∀ (o o' : RunOptions) (k : Key), (∀ v, o'.Has (k.given v) ↔ o.Has (k.given v)) →
      (o'.settings world).value? k = (o.settings world).value? k) ∧
    ∀ (o : RunOptions) (k k' : Key), k' ≠ k →
      (∀ v, ((o.add (k'.given v)).settings world).value? k = (o.settings world).value? k) ∧
      (∀ text?, (o.settings (world.setVariable k'.variableName text?)).value? k =
        (o.settings world).value? k) ∧
      ∀ (world' : World) (text text' : String) (line value : List Char)
        (front behind : List (List Char)),
        (∀ key, (world'.getVariable key).run = (world.getVariable key).run) →
        world.settingsText? = some text → world'.settingsText? = some text' →
        Text.pieces '\n' text.toList = front ++ behind →
        Text.pieces '\n' text'.toList = front ++ [line] ++ behind →
        Assignment (Text.trim line) k'.name.toList value →
        (o.settings world').value? k = (o.settings world).value? k := by
  refine ⟨fun o k v? => resolved_iff, fun name words job => run_prepare_eq_ok_iff,
    fun name o words text p input hrequests hhelp hp =>
      ⟨hrequests.run_prepare_of_accepted hhelp hp name, fun k v => o.value?_settings_of_has world⟩,
    fun o o' k => value?_settings_eq_of_has_iff world,
    fun o k k' hne => ⟨fun v => ?_, fun text? => ?_, ?_⟩⟩
  · exact value?_settings_congr (o.given?_add_given hne v) rfl rfl
  · exact value?_settings_congr rfl (world.exported?_setVariable hne text?)
      (world.declared?_setVariable k k' text?)
  · intro world' text text' line value front behind hvariables htext htext' hlines hlines' hline
    have hunread := unread_of_assignment hne hline front behind
    refine value?_settings_congr rfl ?_
      (World.declared?_eq_of_unread htext htext' hlines hlines' hunread)
    rw [World.exported?, World.exported?, hvariables]

/-- A world with a settings file in the home directory, a policy that is none and a timeout. -/
def World.configured (text : String) : World :=
  (FileTree.mk [(["home", "u", ".config", "bfi.toml"], text.toUTF8)] []).world
    (fun name =>
      if name = "HOME" then some "/home/u"
      else if name = "BF_EOF" then some "never"
      else if name = "BF_TIMEOUT_MS" then some " 8 "
      else none)
    ByteArray.empty

theorem World.settingsText?_configured (text : String) :
    (World.configured text).settingsText? = some text := by
  have hfile : (World.configured text).settingsFile? = some "/home/u/.config/bfi.toml" := rfl
  have hread : ((World.configured text).readFile "/home/u/.config/bfi.toml").run =
      .ok text.toUTF8 := rfl
  rw [settingsText?, hfile, Option.bind_some, hread]
  exact fromUTF8?_toUTF8 text

theorem World.declared?_configured (text : String) (k : Key) :
    (World.configured text).declared? k =
      ((Settings.Reading.ofText text.toList).value? k.name).bind k.read? := by
  rw [declared?, settingsText?_configured, Option.bind_some]

/-- The text of a settings file with a policy and two step limits, the last of which is no number. -/
def twoLimits : String := "[interpreter]\neof = zero\nmax_steps = 5\nmax_steps = many"

/-- Options that tell neither a policy nor a step limit get them from this settings file. -/
theorem RunOptions.settings_configured {ms? : Option UInt64} (heof : o.eof = none)
    (hmaxSteps : o.maxSteps = none)
    (htimeout : (o.settings (World.configured twoLimits)).value? .timeoutMs = ms?) :
    o.settings (World.configured twoLimits) = ⟨.zero, none, ms?⟩ := by
  have hpolicy : (World.configured twoLimits).declared? .eof = some .zero := by
    rw [World.declared?_configured]
    decide +kernel
  have hlimit : (World.configured twoLimits).declared? .maxSteps = none := by
    rw [World.declared?_configured]
    decide +kernel
  refine Settings.ext_value? fun k => ?_
  cases k with
  | eof => exact resolved_iff.1 (.declared heof rfl (World.declared?_eq_some_iff.1 hpolicy))
  | maxSteps => exact resolved_iff.1 (.initial hmaxSteps rfl (World.declared?_eq_none_iff.1 hlimit))
  | timeoutMs => exact htimeout

/-- The policy comes from the settings file and the timeout from its variable, unless the command line
tells another one.  There is no step limit, although the settings file has one in front of its last
assignment.  A line for the timeout leaves the policy as it is. -/
theorem settings_resolved_configured :
    (∃ p, (prepare (World.configured twoLimits) "bfi" ["run", "+"]).run =
      .ok ⟨"bfi", ['+'], p, ⟨.zero, none, some 8⟩, [], false⟩) ∧
    (∃ p, (prepare (World.configured twoLimits) "bfi" ["run", "--timeout=3", "--", "+"]).run =
      .ok ⟨"bfi", ['+'], p, ⟨.zero, none, some 3⟩, [], false⟩) ∧
    ((RunOptions.ofCode ["+"]).settings (World.configured
      "[interpreter]\neof = zero\ntimeout_ms = 7\nmax_steps = 5\nmax_steps = many")).value? .eof =
        some .zero := by
  obtain ⟨hresolved, hstarts, hspelled, -, hapart⟩ :=
    settings_resolved (World.configured twoLimits)
  have hinput : Feeds (World.configured twoLimits) none none [] :=
    .standardInput (show _ = Except.ok ByteArray.empty from rfl)
  obtain ⟨p, hp⟩ : ∃ p, Program.ofText ['+'] = .ok p := ⟨_, rfl⟩
  have hexported : (RunOptions.ofCode ["+"]).settings (World.configured twoLimits) =
      ⟨.zero, none, some 8⟩ :=
    RunOptions.settings_configured rfl rfl ((hresolved _ _ _).1 (.exported rfl (by decide +kernel)))
  refine ⟨⟨p, ?_⟩, ⟨p, ?_⟩, ?_⟩
  · refine (hstarts _ _ _).2 ⟨.ofCode ["+"], ['+'], p, [], by decide,
      ⟨rfl, .words (List.cons_ne_nil _ _), hinput, hp⟩, ?_⟩
    rw [hexported]
    rfl
  · have hspelling : Spelling [.timeout 3] _ := .cons (.oneWord rfl) .nil
    have hrequests : RunOptions.Requests (World.configured twoLimits)
        { RunOptions.ofCode ["+"] with timeoutMs := some 3 } ["--timeout=3", "--", "+"] ['+'] [] := by
      refine ⟨⟨_, _, ⟨by decide, fun g => ?_⟩, hspelling, by decide⟩, by decide,
        .words (List.cons_ne_nil _ _), hinput⟩
      rcases g with (_ | _) | _ | _ | _ | _ | _ | _ <;>
        simp [RunOptions.Has, RunOptions.ofCode, eq_comm]
    obtain ⟨hjob, htold⟩ := hspelled "bfi" _ _ _ p _ hrequests rfl hp
    rw [hjob, RunOptions.settings_configured rfl rfl (htold .timeoutMs 3 rfl)]
    rfl
  · have hline : Assignment (Text.trim "timeout_ms = 7".toList) Key.timeoutMs.name.toList ['7'] :=
      Settings.assignment?_eq_some_iff.1 (by decide)
    have hne : Key.timeoutMs ≠ Key.eof := by decide
    refine Eq.trans ((hapart _ _ _ hne).2.2
      _ _ _ _ _ ["[interpreter]".toList, "eof = zero".toList]
      ["max_steps = 5".toList, "max_steps = many".toList] (fun _ => rfl)
      (World.settingsText?_configured _) (World.settingsText?_configured _) (by decide) (by decide)
      hline) ?_
    rw [hexported]
    rfl

end

end Command

end TapeMachine
