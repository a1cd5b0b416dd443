import TapeMachine.Command.Words
import TapeMachine.Proofs.Text.Printed
set_option autoImplicit false

/-!
# Command: options and their words

How options are written.  A flag is written by its long or its short name, and a field with its value
in one word or in two (`Given.Spelled`).  Several options are written one after the other in any order
(`Spelling`), and behind two dashes the words of a program stand as they are (`escaped`).

A scan does not always settle a field as soon as its value has been read, so what it has read is not
only what it has collected.  `settle` is applied on both sides: from words that spell an option a scan
goes on with a state that settles to one option more (`exists_scan_of_spelled`).

Main statement: a scan reads what has been spelled, and leaves the words of the program
(`scan_spelling`).
-/

namespace TapeMachine.Command

/-- The field that is given and its value as it is written: a text as it is, a policy by its name, and a
number in decimal. -/
def Given.field? : Given → Option (Field × String)
  | flag _ => none
  | file path => some (.file, path)
  | input text => some (.input, text)
  | inputFile path => some (.inputFile, path)
  | eof policy => some (.eof, policy.name)
  | timeout ms => some (.timeout, toString ms.toNat)
  | maxSteps n => some (.maxSteps, toString n.toNat)

/-- The words that give a flag or a field. -/
inductive Given.Spelled : Given → List String → Prop
  | long (f : Flag) : Spelled (flag f) ["--" ++ (Name.flag f).long]
  | short {f : Flag} {c : Char} (h : (Name.flag f).short? = some c) :
    Spelled (flag f) [String.ofList ['-', c]]
  | oneWord {g : Given} {field : Field} {value : String} (h : g.field? = some (field, value)) :
    Spelled g ["--" ++ (Name.field field).long ++ "=" ++ value]
  /-- A value that could be taken for an option cannot stand alone. -/
  | twoWords {g : Given} {field : Field} {value : String} (h : g.field? = some (field, value))
    (hvalue : value = "-" ∨ value.toList.head? ≠ some '-') :
    Spelled g ["--" ++ (Name.field field).long, value]

/-- The words that give several things in this order. -/
inductive Spelling : List Given → List String → Prop
  | nil : Spelling [] []
  | cons {g : Given} {given : List Given} {words rest : List String} (h : g.Spelled words)
    (hrest : Spelling given rest) : Spelling (g :: given) (words ++ rest)

/-- The words of a program as they stand behind the options. -/
def escaped : List String → List String
  | [] => []
  | w :: code => "--" :: w :: code

/-- What is given, each thing once and in some order. -/
def Lists (has : Given → Prop) (order : List Given) : Prop :=
  order.Nodup ∧ ∀ g, g ∈ order ↔ has g

/-! ## Names and values -/

theorem Name.long_injective {n n' : Name} (h : n.long = n'.long) : n = n' := by
  rcases n with (_ | _) | (_ | _ | _ | _ | _ | _) <;>
    rcases n' with (_ | _) | (_ | _ | _ | _ | _ | _) <;>
    first | rfl | exact absurd h (by decide)

theorem Name.short?_injective {n n' : Name} {c : Char} (h : n.short? = some c)
    (h' : n'.short? = some c) : n = n' := by
  rcases n with (_ | _) | (_ | _ | _ | _ | _ | _) <;> cases h <;>
    rcases n' with (_ | _) | (_ | _ | _ | _ | _ | _) <;>
    first | rfl | exact absurd h' (by decide)

theorem Name.equals_notMem_long (n : Name) : '=' ∉ n.long.toList := by
  rcases n with (_ | _) | (_ | _ | _ | _ | _ | _) <;> decide

section Find

variable {names : List Name} {n : Name}

/-- Among names that differ there is at most one to be found. -/
theorem find?_eq_some_of_unique {q : Name → Bool} (hmem : n ∈ names) (hq : q n = true)
    (hunique : ∀ n', q n' = true → n' = n) : names.find? q = some n := by
  cases hfind : names.find? q with
  | none => exact absurd hq (List.find?_eq_none.1 hfind n hmem)
  | some n' => rw [hunique n' (List.find?_some hfind)]

theorem find?_long (hmem : n ∈ names) : (names.find? fun n' => n'.long = n.long) = some n :=
  find?_eq_some_of_unique hmem (decide_eq_true rfl) fun _ h =>
    Name.long_injective (of_decide_eq_true h)

theorem find?_short {c : Char} (hmem : n ∈ names) (hc : n.short? = some c) :
    (names.find? fun n' => n'.short? = some c) = some n :=
  find?_eq_some_of_unique hmem (decide_eq_true hc) fun _ h =>
    Name.short?_injective (of_decide_eq_true h) hc

end Find

/-- A value is read as what it was written for. -/
theorem Given.read_of_field? {g : Given} {field : Field} {value : String}
    (h : g.field? = some (field, value)) : field.read value = .ok g ∧ g.name = .field field := by
  cases g with
  | flag f => cases h
  | eof policy =>
    cases h
    exact ⟨by simp only [Field.read, EofPolicy.ofName?_name], rfl⟩
  | timeout ms =>
    cases h
    exact ⟨by simp only [Field.read, Text.Decimal.readWord?_toString], rfl⟩
  | maxSteps n =>
    cases h
    exact ⟨by simp only [Field.read, Text.Decimal.readWord?_toString], rfl⟩
  | _ => cases h; exact ⟨rfl, rfl⟩

/-! ## The shape of a word -/

theorem Word.ofString_long (n : Name) : Word.ofString ("--" ++ n.long) = .long n.long none := by
  rcases n with (_ | _) | (_ | _ | _ | _ | _ | _) <;> decide

theorem Word.ofString_short {f : Flag} {c : Char} (h : (Name.flag f).short? = some c) :
    Word.ofString (String.ofList ['-', c]) = .short [c] := by
  cases f <;> cases h <;> decide

theorem Word.ofString_value (n : Name) (value : String) :
    Word.ofString ("--" ++ n.long ++ "=" ++ value) = .long n.long (some value) := by
  have htext : ("--" ++ n.long ++ "=" ++ value).toList =
      '-' :: '-' :: (n.long.toList ++ '=' :: value.toList) := by
    simp [String.toList_append]
  have hcut := Text.cutAt?_append n.equals_notMem_long value.toList
  unfold ofString
  rw [htext]
  split
  · next h => simp at h
  · next rest _ h =>
    obtain rfl : n.long.toList ++ '=' :: value.toList = rest := by simpa using h
    simp only [hcut, String.ofList_toList]
  · next hno h => exact (hno (List.cons.inj (List.cons.inj h).2).1.symm).elim
  · next hno => exact absurd rfl (hno _ _)

theorem Word.ofString_plain {word : String} (h : word = "-" ∨ word.toList.head? ≠ some '-') :
    Word.ofString word = .plain := by
  rcases h with rfl | h
  · decide
  · unfold ofString
    split
    · next hw => rw [hw] at h; exact absurd rfl h
    · next hw => rw [hw] at h; exact absurd rfl h
    · next hw => rw [hw] at h; exact absurd rfl h
    · rfl

/-! ## Scanning what has been spelled -/

@[simp]
theorem ok_bind {ε α β : Type} (a : α) (f : α → Except ε β) : (Except.ok a >>= f) = f a := rfl

section Scan

variable {names : List Name} {given done : List Given} {pending : Pending} {g : Given}

theorem addFlag_of_new {f : Flag} (hnew : ∀ g ∈ done, g.name ≠ .flag f) :
    addFlag done f = .ok (done ++ [.flag f]) := by
  rw [addFlag, if_neg]
  simpa using hnew

theorem addField_of_new {field : Field} {value : String} (hnew : ∀ g ∈ done, g.name ≠ .field field)
    (hread : field.read value = .ok g) : addField done field value = .ok (done ++ [g]) := by
  rw [addField, if_neg, hread]
  · rfl
  · simpa using hnew

/-- A new flag by its long name. -/
theorem scanLong_flag {f : Flag} (hmem : .flag f ∈ names) (hnew : ∀ g ∈ done, g.name ≠ .flag f)
    (hdone : settle given pending = .ok done) :
    scanLong names given pending (Name.flag f).long none = .ok (done ++ [.flag f], .nothing) := by
  simp only [scanLong, find?_long hmem, hdone, ok_bind, addFlag_of_new hnew]
  rfl

/-- A new flag by its short name. -/
theorem scanShort_flag {f : Flag} {c : Char} (hc : (Name.flag f).short? = some c)
    (hmem : .flag f ∈ names) (hnew : ∀ g ∈ done, g.name ≠ .flag f)
    (hdone : settle given pending = .ok done) :
    scanShort names given pending [c] = .ok (done ++ [.flag f], .nothing) := by
  simp only [scanShort, find?_short hmem hc, hdone, ok_bind, addFlag_of_new hnew]

/-- A new field with its value in the same word. -/
theorem scanLong_value {field : Field} {value : String} (hread : field.read value = .ok g)
    (hmem : .field field ∈ names) (hnew : ∀ g ∈ done, g.name ≠ .field field)
    (hdone : settle given pending = .ok done) :
    scanLong names given pending (Name.field field).long (some value) =
      .ok (done ++ [g], .nothing) := by
  simp only [scanLong, find?_long hmem, hdone, ok_bind, addField_of_new hnew hread]
  rfl

/-- A field whose value is in the next word. -/
theorem scanLong_field {field : Field} (hmem : .field field ∈ names)
    (hdone : settle given pending = .ok done) :
    scanLong names given pending (Name.field field).long none = .ok (done, .named field) := by
  simp only [scanLong, find?_long hmem, hdone, ok_bind]
  rfl

/-- From the words that spell an option, a scan goes on with one option more. -/
theorem exists_scan_of_spelled {words : List String} (hspelled : g.Spelled words)
    (hmem : g.name ∈ names) (hnew : ∀ x ∈ done, x.name ≠ g.name)
    (hdone : settle given pending = .ok done) (rest : List String) :
    ∃ given' pending', scan names given pending (words ++ rest) = scan names given' pending' rest ∧
      settle given' pending' = .ok (done ++ [g]) := by
  cases hspelled with
  | long f =>
    refine ⟨done ++ [.flag f], .nothing, ?_, rfl⟩
    simp only [List.singleton_append, scan, Word.ofString_long, scanLong_flag hmem hnew hdone,
      ok_bind]
  | short hc =>
    refine ⟨done ++ [.flag _], .nothing, ?_, rfl⟩
    simp only [List.singleton_append, scan, Word.ofString_short hc,
      scanShort_flag hc hmem hnew hdone, ok_bind]
  | oneWord h =>
    obtain ⟨hread, hname⟩ := Given.read_of_field? h
    rw [hname] at hmem hnew
    refine ⟨done ++ [g], .nothing, ?_, rfl⟩
    simp only [List.singleton_append, scan, Word.ofString_value,
      scanLong_value hread hmem hnew hdone, ok_bind]
  | twoWords h hvalue =>
    obtain ⟨hread, hname⟩ := Given.read_of_field? h
    rw [hname] at hmem hnew
    refine ⟨done, .valued _ _, ?_, addField_of_new hnew hread⟩
    simp only [List.cons_append, List.nil_append, scan, Word.ofString_long,
      scanLong_field hmem hdone, ok_bind, Word.ofString_plain hvalue]

/-- From the words that spell several options, a scan goes on with as many options more. -/
theorem exists_scan_of_spelling {order : List Given} {words : List String}
    (hspelling : Spelling order words) (hmem : ∀ g ∈ order, g.name ∈ names)
    (hnew : ((done ++ order).map Given.name).Nodup) (hdone : settle given pending = .ok done)
    (rest : List String) :
    ∃ given' pending', scan names given pending (words ++ rest) = scan names given' pending' rest ∧
      settle given' pending' = .ok (done ++ order) := by
  induction hspelling generalizing given pending done with
  | nil => exact ⟨given, pending, rfl, by rw [hdone, List.append_nil]⟩
  | @cons g order words others hspelled _ ih =>
    obtain ⟨hfirst, hothers⟩ := List.forall_mem_cons.1 hmem
    have hdiffer : ∀ x ∈ done, x.name ≠ g.name := by
      rw [List.map_append, List.nodup_append] at hnew
      intro x hx
      exact hnew.2.2 x.name (List.mem_map_of_mem hx) g.name (by simp)
    obtain ⟨given₁, pending₁, hscan, hsettle⟩ :=
      exists_scan_of_spelled hspelled hfirst hdiffer hdone (others ++ rest)
    rw [List.append_cons] at hnew
    obtain ⟨given₂, pending₂, hscan', hsettle'⟩ := ih hothers hnew hsettle
    refine ⟨given₂, pending₂, ?_, ?_⟩
    · rw [List.append_assoc, hscan, hscan']
    · rw [hsettle', List.append_assoc, List.singleton_append]

/-- Options and the words of a program behind them are read as what they are. -/
theorem scan_spelling {order : List Given} {words : List String} (hspelling : Spelling order words)
    (hmem : ∀ g ∈ order, g.name ∈ names) (hnodup : (order.map Given.name).Nodup)
    (code : List String) :
    ∃ stop, scan names [] .nothing (words ++ escaped code) = .ok (order, stop) ∧
      stop.words = code := by
  have hstart : settle [] .nothing = .ok [] := rfl
  rw [← List.nil_append order] at hnodup
  obtain ⟨given, pending, hscan, hsettle⟩ :=
    exists_scan_of_spelling hspelling hmem hnodup hstart (escaped code)
  rw [List.nil_append] at hsettle
  rw [hscan]
  cases code with
  | nil =>
    refine ⟨.finished, ?_, rfl⟩
    simp only [escaped, scan, hsettle]
    rfl
  | cons w code =>
    refine ⟨.escaped (w :: code), ?_, rfl⟩
    have hdashes : Word.ofString "--" = .endOfOptions := by decide
    simp only [escaped, scan, hdashes, hsettle]
    rfl

end Scan

end TapeMachine.Command
