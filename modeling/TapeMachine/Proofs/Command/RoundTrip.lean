import TapeMachine.Proofs.Command.Spelling
set_option autoImplicit false

/-!
# Command: options there and back

What was given to a subcommand can be written in many ways: the options in any order, each of them
spelled in any of its ways, and the words of the program behind them.  All of these are read as what
was given (`RunOptions.parse_of_spells`, `CheckOptions.parse_of_spells`), because collecting things of
different names leaves exactly these things, in whatever order they come (`has_foldl_of_lists`).

In the other direction a scan only ever takes words from the front (`suffix_of_scan`), so the words of
a program are found at the end of its command line, untouched.

Main statement: `Invocation.run_roundTrip`.
-/

namespace TapeMachine.Command

/-- This was given to the subcommand that runs a program. -/
def RunOptions.Has (o : RunOptions) : Given → Prop
  | .flag .help => o.help = true
  | .flag .debug => o.debug = true
  | .file path => o.file = some path
  | .input text => o.input = some text
  | .inputFile path => o.inputFile = some path
  | .eof policy => o.eof = some policy
  | .timeout ms => o.timeoutMs = some ms
  | .maxSteps n => o.maxSteps = some n

/-- This was given to the subcommand that checks a program. -/
def CheckOptions.Has (o : CheckOptions) : Given → Prop
  | .flag .help => o.help = true
  | .file path => o.file = some path
  | _ => False

/-- The words say what was given, each thing once and in any order, with the program behind it. -/
def RunOptions.Spells (o : RunOptions) (words : List String) : Prop :=
  ∃ order front, Lists o.Has order ∧ Spelling order front ∧ words = front ++ escaped o.code

@[inherit_doc RunOptions.Spells]
def CheckOptions.Spells (o : CheckOptions) (words : List String) : Prop :=
  ∃ order front, Lists o.Has order ∧ Spelling order front ∧ words = front ++ escaped o.code

/-! ## Collecting what is given -/

/-- If of one name there is one thing, the names of all things differ. -/
theorem Lists.nodup_names {has : Given → Prop} {order : List Given} (h : Lists has order)
    (hunique : ∀ g g', has g → has g' → g.name = g'.name → g = g') :
    (order.map Given.name).Nodup :=
  List.pairwise_map.2 <| h.1.imp_of_mem fun hg hg' hne heq =>
    hne (hunique _ _ ((h.2 _).1 hg) ((h.2 _).1 hg') heq)

section Collect

variable {α : Type} {add : α → Given → α} {has : α → Given → Prop} {names : List Name}
  {order : List Given}

/-- Collecting things of different names leaves these things, and what was there under other names. -/
theorem has_foldl
    (hadd : ∀ o x g, x.name ∈ names → (has (add o x) g ↔ x = g ∨ g.name ≠ x.name ∧ has o g))
    (hmem : ∀ g ∈ order, g.name ∈ names) (hnodup : (order.map Given.name).Nodup) (o : α)
    (g : Given) :
    has (order.foldl add o) g ↔ g ∈ order ∨ g.name ∉ order.map Given.name ∧ has o g := by
  induction order generalizing o with
  | nil => simp
  | cons x order ih =>
    obtain ⟨hx, hothers⟩ := List.forall_mem_cons.1 hmem
    obtain ⟨hnew, hrest⟩ := List.nodup_cons.1 hnodup
    rw [List.foldl_cons, ih hothers hrest, hadd o x g hx, List.map_cons, List.mem_cons,
      List.mem_cons, not_or]
    constructor
    · rintro (h | ⟨hn, rfl | ⟨hne, h⟩⟩)
      · exact .inl (.inr h)
      · exact .inl (.inl rfl)
      · exact .inr ⟨⟨hne, hn⟩, h⟩
    · rintro ((rfl | h) | ⟨⟨hne, hn⟩, h⟩)
      · exact .inr ⟨hnew, .inl rfl⟩
      · exact .inl h
      · exact .inr ⟨hn, .inr ⟨hne, h⟩⟩

/-- All that some options have, collected in any order from nothing. -/
theorem has_foldl_of_lists {o none : α}
    (hadd : ∀ o x g, x.name ∈ names → (has (add o x) g ↔ x = g ∨ g.name ≠ x.name ∧ has o g))
    (hunique : ∀ g g', has o g → has o g' → g.name = g'.name → g = g')
    (hmem : ∀ g, has o g → g.name ∈ names) (hnone : ∀ g, ¬has none g) (h : Lists (has o) order)
    (g : Given) : has (order.foldl add none) g ↔ has o g := by
  rw [has_foldl hadd (fun g hg => hmem g ((h.2 g).1 hg)) (h.nodup_names hunique), h.2 g]
  exact or_iff_left fun hnew => hnone g hnew.2

end Collect

theorem Given.name_mem_runNames (g : Given) : g.name ∈ runNames := by
  rcases g with (_ | _) | _ | _ | _ | _ | _ | _ <;> simp [name, runNames]

theorem Given.name_mem_checkNames_iff {g : Given} :
    g.name ∈ checkNames ↔ g = .flag .help ∨ ∃ path, g = .file path := by
  rcases g with (_ | _) | _ | _ | _ | _ | _ | _ <;> simp [name, checkNames]

namespace RunOptions

variable {o o' : RunOptions} {words : List String} {g g' : Given}

theorem Has.unique (h : o.Has g) (h' : o.Has g') (hname : g.name = g'.name) : g = g' := by
  cases g <;> cases g' <;> cases hname <;> first | rfl | (cases h.symm.trans h'; rfl)

theorem has_add (o : RunOptions) (x g : Given) :
    (o.add x).Has g ↔ x = g ∨ g.name ≠ x.name ∧ o.Has g := by
  rcases x with (_ | _) | _ | _ | _ | _ | _ | _ <;>
    rcases g with (_ | _) | _ | _ | _ | _ | _ | _ <;>
    simp [add, Has, Given.name]

theorem not_has_ofCode (code : List String) (g : Given) : ¬(ofCode code).Has g := by
  rcases g with (_ | _) | _ | _ | _ | _ | _ | _ <;> simp [ofCode, Has]

@[simp]
theorem code_add (o : RunOptions) (g : Given) : (o.add g).code = o.code := by
  rcases g with (_ | _) | _ | _ | _ | _ | _ | _ <;> rfl

@[simp]
theorem code_foldl_add (given : List Given) (o : RunOptions) :
    (given.foldl add o).code = o.code := by
  induction given generalizing o with
  | nil => rfl
  | cons g given ih => rw [List.foldl_cons, ih, code_add]

/-- Options are what was given and the words of the program. -/
theorem eq_of_has_iff (hcode : o.code = o'.code) (h : ∀ g, o.Has g ↔ o'.Has g) : o = o' := by
  cases o
  cases o'
  simp only [mk.injEq]
  exact ⟨Bool.eq_iff_iff.2 (h (.flag .help)), Bool.eq_iff_iff.2 (h (.flag .debug)),
    Option.ext fun path => h (.file path), Option.ext fun text => h (.input text),
    Option.ext fun path => h (.inputFile path), Option.ext fun policy => h (.eof policy),
    Option.ext fun ms => h (.timeout ms), Option.ext fun n => h (.maxSteps n), hcode⟩

/-- All that was given, collected in any order. -/
theorem foldl_add_of_lists {order : List Given} (h : Lists o.Has order) :
    order.foldl add (ofCode o.code) = o :=
  eq_of_has_iff (code_foldl_add order _) <|
    has_foldl_of_lists (fun o x g _ => has_add o x g) (fun _ _ => Has.unique)
      (fun g _ => g.name_mem_runNames) (not_has_ofCode o.code) h

/-- Words are read as the options that they spell. -/
theorem parse_of_spells (h : o.Spells words) (hinput : ¬(o.input.isSome ∧ o.inputFile.isSome)) :
    parse words = .ok o := by
  obtain ⟨order, front, hlists, hspelling, rfl⟩ := h
  obtain ⟨stop, hscan, hstop⟩ := scan_spelling hspelling (fun g _ => g.name_mem_runNames)
    (hlists.nodup_names fun _ _ => Has.unique) o.code
  simp only [parse, hscan, ok_bind, hstop, foldl_add_of_lists hlists]
  exact if_neg hinput

end RunOptions

namespace CheckOptions

variable {o o' : CheckOptions} {words : List String} {g g' : Given}

theorem Has.name_mem_checkNames (h : o.Has g) : g.name ∈ checkNames :=
  Given.name_mem_checkNames_iff.2 <|
    match g, h with
    | .flag .help, _ => .inl rfl
    | .file path, _ => .inr ⟨path, rfl⟩

theorem Has.unique (h : o.Has g) (h' : o.Has g') (hname : g.name = g'.name) : g = g' := by
  cases g <;> cases g' <;> cases hname <;> first | rfl | exact h.elim | (cases h.symm.trans h'; rfl)

theorem has_add (o : CheckOptions) (x g : Given) (hx : x.name ∈ checkNames) :
    (o.add x).Has g ↔ x = g ∨ g.name ≠ x.name ∧ o.Has g := by
  rcases Given.name_mem_checkNames_iff.1 hx with rfl | ⟨path, rfl⟩ <;>
    rcases g with (_ | _) | _ | _ | _ | _ | _ | _ <;>
    simp [add, Has, Given.name]

theorem not_has_ofCode (code : List String) (g : Given) : ¬(ofCode code).Has g := by
  rcases g with (_ | _) | _ | _ | _ | _ | _ | _ <;> simp [ofCode, Has]

@[simp]
theorem code_foldl_add (given : List Given) (o : CheckOptions) :
    (given.foldl add o).code = o.code := by
  induction given generalizing o with
  | nil => rfl
  | cons g given ih =>
    rw [List.foldl_cons, ih]
    rcases g with (_ | _) | _ | _ | _ | _ | _ | _ <;> rfl

@[inherit_doc RunOptions.eq_of_has_iff]
theorem eq_of_has_iff (hcode : o.code = o'.code) (h : ∀ g, o.Has g ↔ o'.Has g) : o = o' := by
  cases o
  cases o'
  simp only [mk.injEq]
  exact ⟨Bool.eq_iff_iff.2 (h (.flag .help)), Option.ext fun path => h (.file path), hcode⟩

@[inherit_doc RunOptions.foldl_add_of_lists]
theorem foldl_add_of_lists {order : List Given} (h : Lists o.Has order) :
    order.foldl add (ofCode o.code) = o :=
  eq_of_has_iff (code_foldl_add order _) <|
    has_foldl_of_lists has_add (fun _ _ => Has.unique) (fun _ => Has.name_mem_checkNames)
      (not_has_ofCode o.code) h

@[inherit_doc RunOptions.parse_of_spells]
theorem parse_of_spells (h : o.Spells words) : parse words = .ok o := by
  obtain ⟨order, front, hlists, hspelling, rfl⟩ := h
  obtain ⟨stop, hscan, hstop⟩ := scan_spelling hspelling
    (fun g hg => ((hlists.2 g).1 hg).name_mem_checkNames)
    (hlists.nodup_names fun _ _ => Has.unique) o.code
  simp only [parse, hscan, ok_bind, hstop, foldl_add_of_lists hlists]

end CheckOptions

/-! ## What is left of a command line -/

theorem bind_eq_ok_iff {ε α β : Type} {x : Except ε α} {f : α → Except ε β} {b : β} :
    (x >>= f) = .ok b ↔ ∃ a, x = .ok a ∧ f a = .ok b := by
  cases x with
  | error fault => exact ⟨nofun, fun ⟨_, h, _⟩ => nomatch h⟩
  | ok a => exact ⟨fun h => ⟨a, rfl, h⟩, fun ⟨_, ha, h⟩ => Except.ok.inj ha ▸ h⟩

/-- A scan takes words from the front and leaves the others as they are. -/
theorem suffix_of_scan {names : List Name} {given given' : List Given} {pending : Pending}
    {words : List String} {stop : Stop}
    (h : scan names given pending words = .ok (given', stop)) : stop.words <:+ words := by
  induction words generalizing given pending with
  | nil =>
    obtain ⟨settled, -, hstop⟩ := bind_eq_ok_iff.1 h
    cases hstop
    exact List.suffix_rfl
  | cons w rest ih =>
    unfold scan at h
    split at h
    · obtain ⟨settled, -, hstop⟩ := bind_eq_ok_iff.1 h
      cases hstop
      exact List.suffix_cons w rest
    · obtain ⟨⟨given₁, pending₁⟩, -, hscan⟩ := bind_eq_ok_iff.1 h
      exact (ih hscan).trans (List.suffix_cons w rest)
    · obtain ⟨⟨given₁, pending₁⟩, -, hscan⟩ := bind_eq_ok_iff.1 h
      exact (ih hscan).trans (List.suffix_cons w rest)
    · split at h
      · exact (ih h).trans (List.suffix_cons w rest)
      · obtain ⟨settled, -, hstop⟩ := bind_eq_ok_iff.1 h
        cases hstop
        exact List.suffix_rfl

section

variable {o : RunOptions} {words : List String}

/-- The words of the program stand at the end, and its input is given in one way at most. -/
theorem RunOptions.suffix_of_parse (h : parse words = .ok o) :
    o.code <:+ words ∧ ¬(o.input.isSome ∧ o.inputFile.isSome) := by
  obtain ⟨⟨given, stop⟩, hscan, hcollect⟩ := bind_eq_ok_iff.1 h
  simp only at hcollect
  split at hcollect
  · cases hcollect
  · next hinput =>
    cases hcollect
    rw [code_foldl_add]
    exact ⟨suffix_of_scan hscan, hinput⟩

theorem Invocation.parse_run (words : List String) :
    parse ("run" :: words) = (RunOptions.parse words).map fun o => ⟨false, some (.run o)⟩ := by
  have hscan : scan [.flag .help] [] .nothing ("run" :: words) = .ok ([], .word "run" words) := rfl
  simp only [parse, hscan, ok_bind, Subcommand.parse, if_true]
  cases RunOptions.parse words <;> rfl

theorem Invocation.parse_check (words : List String) :
    parse ("check" :: words) = (CheckOptions.parse words).map fun o => ⟨false, some (.check o)⟩ := by
  have hscan : scan [.flag .help] [] .nothing ("check" :: words) = .ok ([], .word "check" words) :=
    rfl
  have hne : "check" ≠ "run" := by decide
  simp only [parse, hscan, ok_bind, Subcommand.parse, if_neg hne, if_true]
  cases CheckOptions.parse words <;> rfl

/-- The options of a run are read from the words behind its name. -/
theorem Invocation.exists_parse_of_run {help : Bool}
    (h : parse words = .ok ⟨help, some (.run o)⟩) :
    ∃ rest, rest <:+ words ∧ RunOptions.parse rest = .ok o := by
  obtain ⟨⟨given, stop⟩, hscan, hcommand⟩ := bind_eq_ok_iff.1 h
  cases stop with
  | finished => cases hcommand
  | escaped rest => cases rest <;> cases hcommand
  | word name rest =>
    obtain ⟨command, hparse, heq⟩ := bind_eq_ok_iff.1 hcommand
    cases heq
    refine ⟨rest, (List.suffix_cons name rest).trans (suffix_of_scan hscan), ?_⟩
    unfold Subcommand.parse at hparse
    split at hparse
    · cases hrun : RunOptions.parse rest with
      | error fault => rw [hrun] at hparse; cases hparse
      | ok o' => rw [hrun] at hparse; cases hparse; rfl
    · split at hparse
      · cases hcheck : CheckOptions.parse rest with
        | error fault => rw [hcheck] at hparse; cases hparse
        | ok o' => rw [hcheck] at hparse; cases hparse
      · cases hparse

/-- The options of a run come back from every way to write them.  And whatever is read as the options
of a run, the words of its program stand at the end of the command line as they are, and its input is
not given both as a text and as a file. -/
theorem Invocation.run_roundTrip :
    (∀ (o : RunOptions) (words : List String), ¬(o.input.isSome ∧ o.inputFile.isSome) →
      o.Spells words → parse ("run" :: words) = .ok ⟨false, some (.run o)⟩) ∧
    ∀ (words : List String) (help : Bool) (o : RunOptions),
      parse words = .ok ⟨help, some (.run o)⟩ →
        o.code <:+ words ∧ ¬(o.input.isSome ∧ o.inputFile.isSome) := by
  refine ⟨fun o words hinput hspells => ?_, fun words help o h => ?_⟩
  · rw [parse_run, RunOptions.parse_of_spells hspells hinput]
    rfl
  · obtain ⟨rest, hrest, hparse⟩ := exists_parse_of_run h
    obtain ⟨hcode, hinput⟩ := RunOptions.suffix_of_parse hparse
    exact ⟨hcode.trans hrest, hinput⟩

/-- A number in one word, a dash in two, a short flag, and a program whose words look like options. -/
theorem Invocation.run_roundTrip_dashes :
    parse ["run", "--max-steps=5", "--input", "-", "-d", "--", "--", "-h", "->+<"] =
      .ok ⟨false, some (.run { RunOptions.ofCode ["--", "-h", "->+<"] with
        debug := true, input := some "-", maxSteps := some 5 })⟩ := by
  have hspelling : Spelling [.maxSteps 5, .input "-", .flag .debug] _ :=
    .cons (.oneWord rfl) (.cons (.twoWords rfl (.inl rfl)) (.cons (.short rfl) .nil))
  refine run_roundTrip.1 _ _ (by simp [RunOptions.ofCode]) ⟨_, _, ⟨by decide, fun g => ?_⟩,
    hspelling, by decide⟩
  rcases g with (_ | _) | _ | _ | _ | _ | _ | _ <;>
    simp [RunOptions.Has, RunOptions.ofCode, eq_comm]

end

end TapeMachine.Command
