import TapeMachine.Bracket.Pairing
import TapeMachine.Bracket.Scan
set_option autoImplicit false

/-!
# Bracket: the stack and the scan

The pass over a whole text keeps a stack of open brackets, and the scan of one loop keeps a count of
them.  This file ties the two together.  The position of an opening bracket in the stack is the count
at which a scan has to find its end, so

* the scan from any point reaches its end exactly where the pass has taken the brackets above from
  the stack (`stillOpen_visitAll_take`), and
* a bracket is left on the stack exactly when the scan of its loop finds no end
  (`mem_stillOpen_visitAll_iff`).

`openAt text ip` is the stack in front of position `ip`.  The partners of a text are read off it: a
closing bracket belongs to the top of the stack in front of it (`partner_of_openAt`).

Main statement: the pass and the scan never disagree (`partners_agree_with_loopEnd?`).
-/

namespace TapeMachine.Bracket

/-- Only the brackets among the characters matter, and this is how a character is looked at. -/
theorem bracket_cases (c : Char) : c = '[' ∨ c = ']' ∨ c ≠ '[' ∧ c ≠ ']' := by
  by_cases ho : c = '['
  · exact .inl ho
  · by_cases hc : c = ']'
    · exact .inr (.inl hc)
    · exact .inr (.inr ⟨ho, hc⟩)

/-! ## The scan -/

theorem getElem?_of_loopEndFrom {d k : Nat} {text : List Char}
    (h : loopEndFrom d text = some k) : text[k]? = some ']' := by
  induction text generalizing d k with
  | nil => simp at h
  | cons c text ih =>
    rcases bracket_cases c with rfl | rfl | ⟨ho, hc⟩
    · rw [loopEndFrom_open, Option.map_eq_some_iff] at h
      obtain ⟨j, hj, rfl⟩ := h
      simpa using ih hj
    · cases d with
      | zero =>
        rw [loopEndFrom_close_zero, Option.some.injEq] at h
        subst h
        rfl
      | succ d =>
        rw [loopEndFrom_close_succ, Option.map_eq_some_iff] at h
        obtain ⟨j, hj, rfl⟩ := h
        simpa using ih hj
    · rw [loopEndFrom_other ho hc, Option.map_eq_some_iff] at h
      obtain ⟨j, hj, rfl⟩ := h
      simpa using ih hj

/-- The end that a scan finds cuts the text in two. -/
theorem eq_append_of_loopEndFrom {d k : Nat} {text : List Char}
    (h : loopEndFrom d text = some k) : text = text.take k ++ ']' :: text.drop (k + 1) := by
  obtain ⟨hlt, hget⟩ := List.getElem?_eq_some_iff.1 (getElem?_of_loopEndFrom h)
  rw [← hget, List.getElem_cons_drop, List.take_append_drop]

/-- A scan that has one more bracket to close goes through the end of the innermost loop. -/
theorem exists_loopEnd_of_loopEndFrom_succ {d k : Nat} {text : List Char}
    (h : loopEndFrom (d + 1) text = some k) :
    ∃ i j, loopEndFrom d text = some i ∧
      loopEnd? (text.drop (i + 1)) = some j ∧ k = i + 1 + j := by
  induction text generalizing d k with
  | nil => cases h
  | cons c text ih =>
    rcases bracket_cases c with rfl | rfl | ⟨ho, hc⟩
    · rw [loopEndFrom_open, Option.map_eq_some_iff] at h
      obtain ⟨m, hm, rfl⟩ := h
      obtain ⟨i, j, hi, hj, rfl⟩ := ih hm
      refine ⟨i + 1, j, ?_, hj, by omega⟩
      rw [loopEndFrom_open, hi]
      rfl
    · rw [loopEndFrom_close_succ, Option.map_eq_some_iff] at h
      obtain ⟨m, hm, rfl⟩ := h
      cases d with
      | zero => exact ⟨0, m, loopEndFrom_close_zero text, hm, by omega⟩
      | succ d =>
        obtain ⟨i, j, hi, hj, rfl⟩ := ih hm
        refine ⟨i + 1, j, ?_, hj, by omega⟩
        rw [loopEndFrom_close_succ, hi]
        rfl
    · rw [loopEndFrom_other ho hc, Option.map_eq_some_iff] at h
      obtain ⟨m, hm, rfl⟩ := h
      obtain ⟨i, j, hi, hj, rfl⟩ := ih hm
      refine ⟨i + 1, j, ?_, hj, by omega⟩
      rw [loopEndFrom_other ho hc, hi]
      rfl

/-- What is behind a part of a text is shorter than the text with its first character. -/
theorem length_drop_lt (c : Char) (text : List Char) (k : Nat) :
    (text.drop k).length < (c :: text).length := by
  rw [List.length_drop, List.length_cons]
  omega

/-- The text up to some point beyond the end of a loop. -/
theorem take_of_loopEnd? {i : Nat} {text : List Char} (h : loopEnd? text = some i)
    (j : Nat) : text.take (i + 1 + j) = text.take i ++ ']' :: (text.drop (i + 1)).take j := by
  rw [List.take_add, List.take_add_one, getElem?_of_loopEndFrom h]
  simp

/-! ## The stack -/

namespace Pairing

theorem stillOpen_visit (p : Pairing) (i : Nat) (c : Char) :
    (p.visit i c).stillOpen =
      if c = '[' then i :: p.stillOpen
      else if c = ']' then p.stillOpen.tail else p.stillOpen := by
  obtain ⟨partners, stillOpen⟩ := p
  rcases bracket_cases c with rfl | rfl | ⟨ho, hc⟩
  · simp
  · cases stillOpen <;> simp
  · simp [visit_other ho hc, ho, hc]

/-- What is on the stack was there before or has been put there since. -/
theorem mem_stillOpen_visit {p : Pairing} {i o : Nat} {c : Char}
    (h : o ∈ (p.visit i c).stillOpen) : o ∈ p.stillOpen ∨ o = i := by
  rw [stillOpen_visit] at h
  split at h
  · simpa [or_comm] using h
  · split at h
    · exact .inl (List.mem_of_mem_tail h)
    · exact .inl h

/-- The stack holds earlier positions only, and later ones above earlier ones. -/
theorem pairwise_visit {p : Pairing} {i : Nat} (h : (i :: p.stillOpen).Pairwise (· > ·))
    (c : Char) : ((i + 1) :: (p.visit i c).stillOpen).Pairwise (· > ·) := by
  have hstack := List.pairwise_cons.1 h
  refine List.pairwise_cons.2 ⟨fun o ho => ?_, ?_⟩
  · rcases mem_stillOpen_visit ho with hmem | rfl
    · exact Nat.lt_succ_of_lt (hstack.1 o hmem)
    · exact Nat.lt_succ_self o
  · rw [stillOpen_visit]
    split
    · exact h
    · split
      · exact hstack.2.sublist (List.tail_sublist _)
      · exact hstack.2

theorem pairwise_visitAll {p : Pairing} {i : Nat} (h : (i :: p.stillOpen).Pairwise (· > ·))
    (text : List Char) :
    ((i + text.length) :: (p.visitAll i text).stillOpen).Pairwise (· > ·) := by
  induction text generalizing p i with
  | nil => exact h
  | cons c text ih =>
    rw [visitAll_cons, List.length_cons, Nat.add_comm text.length, ← Nat.add_assoc]
    exact ih (pairwise_visit h c)

/-- A scan that starts below `d` brackets of the stack ends where the pass has removed them. -/
theorem stillOpen_visitAll_take {p : Pairing} {i d k : Nat} {text : List Char}
    (h : loopEndFrom d text = some k) (hd : d ≤ p.stillOpen.length) :
    (p.visitAll i (text.take k)).stillOpen = p.stillOpen.drop d := by
  induction text generalizing p i d k with
  | nil => simp at h
  | cons c text ih =>
    rcases bracket_cases c with rfl | rfl | ⟨ho, hc⟩
    · rw [loopEndFrom_open, Option.map_eq_some_iff] at h
      obtain ⟨j, hj, rfl⟩ := h
      rw [List.take_succ_cons, visitAll_cons, visit_open, ih hj (by simpa using hd)]
      rfl
    · cases d with
      | zero =>
        rw [loopEndFrom_close_zero, Option.some.injEq] at h
        subst h
        rfl
      | succ d =>
        rw [loopEndFrom_close_succ, Option.map_eq_some_iff] at h
        obtain ⟨j, hj, rfl⟩ := h
        obtain ⟨partners, stillOpen⟩ := p
        cases stillOpen with
        | nil => simp at hd
        | cons o outer =>
          rw [List.take_succ_cons, visitAll_cons, visit_close_paired, ih hj (by simpa using hd)]
          rfl
    · rw [loopEndFrom_other ho hc, Option.map_eq_some_iff] at h
      obtain ⟨j, hj, rfl⟩ := h
      rw [List.take_succ_cons, visitAll_cons, visit_other ho hc, ih hj hd]

theorem exists_getElem?_cons {a o : Nat} {stack : List Nat} (q : Nat → Prop) :
    (∃ d, (a :: stack)[d]? = some o ∧ q d) ↔
      (o = a ∧ q 0) ∨ ∃ d, stack[d]? = some o ∧ q (d + 1) := by
  rw [← Nat.or_exists_add_one]
  simp [eq_comm]

/-- What is left on the stack: brackets that were on it and whose scan goes on past the text, and
brackets of the text whose own scan finds no end. -/
theorem mem_stillOpen_visitAll_iff {p : Pairing} {i o : Nat} {text : List Char} :
    o ∈ (p.visitAll i text).stillOpen ↔
      (∃ d, p.stillOpen[d]? = some o ∧ loopEndFrom d text = none) ∨
      ∃ j, o = i + j ∧ text[j]? = some '[' ∧ loopEnd? (text.drop (j + 1)) = none := by
  induction text generalizing p i with
  | nil => simp [List.mem_iff_getElem?]
  | cons c text ih =>
    obtain ⟨partners, stillOpen⟩ := p
    have hfirst : (∃ j, o = i + j ∧ (c :: text)[j]? = some '[' ∧
          loopEnd? ((c :: text).drop (j + 1)) = none) ↔
        (o = i ∧ c = '[' ∧ loopEnd? text = none) ∨
        ∃ j, o = i + 1 + j ∧ text[j]? = some '[' ∧ loopEnd? (text.drop (j + 1)) = none := by
      rw [← Nat.or_exists_add_one]
      simp [Nat.add_comm 1, Nat.add_assoc]
    rw [visitAll_cons, ih, hfirst]
    rcases bracket_cases c with rfl | rfl | ⟨ho, hc⟩
    · rw [visit_open, exists_getElem?_cons]
      simp [loopEnd?, or_assoc, or_left_comm]
    · cases stillOpen with
      | nil => simp
      | cons top outer =>
        rw [visit_close_paired, exists_getElem?_cons]
        simp
    · simp [visit_other ho hc, loopEndFrom_other ho hc, ho]

theorem mem_stillOpen_visitAll {p : Pairing} {i o : Nat} {text : List Char}
    (h : o ∈ (p.visitAll i text).stillOpen) : o ∈ p.stillOpen ∨ i ≤ o := by
  rcases mem_stillOpen_visitAll_iff.1 h with ⟨d, hd, -⟩ | ⟨j, rfl, -, -⟩
  · exact .inl (List.mem_of_getElem? hd)
  · exact .inr (Nat.le_add_right i j)

/-! ## The table -/

@[simp] theorem size_join (partners : Array (Option Nat)) (opening closing : Nat) :
    (join partners opening closing).size = partners.size := by
  simp [join]

theorem getD_join_of_ne {partners : Array (Option Nat)} {opening closing j : Nat}
    (ho : j ≠ opening) (hc : j ≠ closing) :
    (join partners opening closing).getD j none = partners.getD j none := by
  simp [join, Ne.symm ho, Ne.symm hc]

theorem getD_join_closing {partners : Array (Option Nat)} {opening closing : Nat}
    (h : closing < partners.size) :
    (join partners opening closing).getD closing none = some opening := by
  simp [join, h]

theorem getD_join_opening {partners : Array (Option Nat)} {opening closing : Nat}
    (ho : opening < closing) (hc : closing < partners.size) :
    (join partners opening closing).getD opening none = some closing := by
  have h : opening < partners.size := Nat.lt_trans ho hc
  simp [join, h, Nat.ne_of_gt ho]

theorem size_visit (p : Pairing) (i : Nat) (c : Char) :
    (p.visit i c).partners.size = p.partners.size := by
  obtain ⟨partners, stillOpen⟩ := p
  rcases bracket_cases c with rfl | rfl | ⟨ho, hc⟩
  · simp
  · cases stillOpen <;> simp
  · rw [visit_other ho hc]

theorem size_visitAll (p : Pairing) (i : Nat) (text : List Char) :
    (p.visitAll i text).partners.size = p.partners.size := by
  induction text generalizing p i with
  | nil => rfl
  | cons c text ih => rw [visitAll_cons, ih, size_visit]

/-- A visit writes at its own position and at the top of the stack, and nowhere else. -/
theorem getD_visit_of_notMem {p : Pairing} {i j : Nat} (hi : j ≠ i) (hm : j ∉ p.stillOpen)
    (c : Char) : (p.visit i c).partners.getD j none = p.partners.getD j none := by
  obtain ⟨partners, stillOpen⟩ := p
  rcases bracket_cases c with rfl | rfl | ⟨ho, hc⟩
  · rw [visit_open]
  · cases stillOpen with
    | nil => rw [visit_close_stray]
    | cons top outer =>
      rw [visit_close_paired]
      exact getD_join_of_ne (fun h => hm (by simp [h])) hi
  · rw [visit_other ho hc]

/-- Nothing changes for a position that is outside the text and not on the stack. -/
theorem getD_visitAll_of_notMem {p : Pairing} {i j : Nat} {text : List Char}
    (hj : j < i ∨ i + text.length ≤ j) (hm : j ∉ p.stillOpen) :
    (p.visitAll i text).partners.getD j none = p.partners.getD j none := by
  induction text generalizing p i with
  | nil => rfl
  | cons c text ih =>
    rw [List.length_cons] at hj
    have hi : j ≠ i := by omega
    rw [visitAll_cons, ih (by omega) fun h => (mem_stillOpen_visit h).elim hm hi]
    exact getD_visit_of_notMem hi hm c

/-- The state of the pass over `text` in front of position `ip`. -/
def upTo (text : List Char) (ip : Nat) : Pairing :=
  (start text.length).visitAll 0 (text.take ip)

theorem upTo_succ {text : List Char} {ip : Nat} {c : Char} (h : text[ip]? = some c) :
    upTo text (ip + 1) = (upTo text ip).visit ip c := by
  have hlt : ip < text.length := (List.getElem?_eq_some_iff.1 h).1
  rw [upTo, List.take_add_one, h, visitAll_append]
  simp [upTo, List.length_take, Nat.min_eq_left (Nat.le_of_lt hlt)]

theorem upTo_add {text : List Char} {ip : Nat} (h : ip ≤ text.length) (k : Nat) :
    upTo text (ip + k) = (upTo text ip).visitAll ip ((text.drop ip).take k) := by
  rw [upTo, List.take_add, visitAll_append]
  simp [upTo, List.length_take, Nat.min_eq_left h]

theorem size_upTo (text : List Char) (ip : Nat) : (upTo text ip).partners.size = text.length := by
  rw [upTo, size_visitAll]
  simp [start]

end Pairing

/-- The brackets that are open in front of position `ip`, innermost first. -/
def openAt (text : List Char) (ip : Nat) : List Nat := (Pairing.upTo text ip).stillOpen

@[simp] theorem openAt_zero (text : List Char) : openAt text 0 = [] := by
  simp [openAt, Pairing.upTo, Pairing.start]

theorem openAt_succ {text : List Char} {ip : Nat} {c : Char} (h : text[ip]? = some c) :
    openAt text (ip + 1) =
      if c = '[' then ip :: openAt text ip
      else if c = ']' then (openAt text ip).tail else openAt text ip := by
  rw [openAt, Pairing.upTo_succ h, Pairing.stillOpen_visit]
  rfl

theorem openAt_succ_open {text : List Char} {ip : Nat} (h : text[ip]? = some '[') :
    openAt text (ip + 1) = ip :: openAt text ip := by
  simp [openAt_succ h]

theorem openAt_succ_close {text : List Char} {ip : Nat} (h : text[ip]? = some ']') :
    openAt text (ip + 1) = (openAt text ip).tail := by
  simp [openAt_succ h]

theorem openAt_succ_other {text : List Char} {ip : Nat} {c : Char} (h : text[ip]? = some c)
    (ho : c ≠ '[') (hc : c ≠ ']') : openAt text (ip + 1) = openAt text ip := by
  simp [openAt_succ h, ho, hc]

theorem pairwise_openAt {text : List Char} {ip : Nat} (h : ip ≤ text.length) :
    (ip :: openAt text ip).Pairwise (· > ·) := by
  have hstart : (0 :: (Pairing.start text.length).stillOpen).Pairwise (· > ·) := by
    simp [Pairing.start]
  have := Pairing.pairwise_visitAll hstart (text.take ip)
  rwa [List.length_take, Nat.min_eq_left h, Nat.zero_add] at this

theorem lt_of_mem_openAt {text : List Char} {ip o : Nat} (h : ip ≤ text.length)
    (ho : o ∈ openAt text ip) : o < ip :=
  (List.pairwise_cons.1 (pairwise_openAt h)).1 o ho

theorem getElem?_of_mem_openAt {text : List Char} {ip o : Nat} (ho : o ∈ openAt text ip) :
    text[o]? = some '[' := by
  rw [openAt, Pairing.upTo, Pairing.mem_stillOpen_visitAll_iff] at ho
  rcases ho with ⟨d, hd, -⟩ | ⟨j, rfl, hj, -⟩
  · simp [Pairing.start] at hd
  · rw [List.getElem?_take] at hj
    split at hj
    · rwa [Nat.zero_add]
    · cases hj

/-- A bracket that is open at a position is open at all positions between it and this one. -/
theorem mem_openAt_of_le {text : List Char} {i j o : Nat} (ho : o ∈ openAt text j) (hoi : o < i)
    (hij : i ≤ j) (hi : i ≤ text.length) : o ∈ openAt text i := by
  obtain ⟨k, rfl⟩ := Nat.exists_eq_add_of_le hij
  rw [openAt, Pairing.upTo_add hi] at ho
  rcases Pairing.mem_stillOpen_visitAll ho with hmem | hle
  · exact hmem
  · exact absurd hoi (Nat.not_lt_of_le hle)

/-- Where a loop ends, the brackets around it and its own one are open. -/
theorem openAt_loopEnd {text : List Char} {o k : Nat} (h : text[o]? = some '[')
    (hk : loopEnd? (text.drop (o + 1)) = some k) :
    openAt text (o + 1 + k) = o :: openAt text o := by
  have hlt : o < text.length := (List.getElem?_eq_some_iff.1 h).1
  rw [openAt, Pairing.upTo_add hlt, Pairing.stillOpen_visitAll_take hk (Nat.zero_le _)]
  exact openAt_succ_open h

theorem getElem?_of_loopEnd {text : List Char} {o k : Nat}
    (hk : loopEnd? (text.drop (o + 1)) = some k) : text[o + 1 + k]? = some ']' := by
  have := getElem?_of_loopEndFrom hk
  rwa [List.getElem?_drop] at this

/-! ## How deep the stack gets -/

/-- The greatest number of loops that are open at once while `text` is read, `depth` of them being
open at its start. -/
def nestingFrom (depth : Nat) : List Char → Nat
  | [] => depth
  | c :: text =>
    max depth (nestingFrom (if c = '[' then depth + 1 else if c = ']' then depth - 1 else depth) text)

/-- How deeply the loops of a text are nested. -/
def nesting (text : List Char) : Nat := nestingFrom 0 text

theorem Pairing.length_stillOpen_le (p : Pairing) (i k : Nat) (text : List Char) :
    (p.visitAll i (text.take k)).stillOpen.length ≤ nestingFrom p.stillOpen.length text := by
  induction text generalizing p i k with
  | nil => simp [nestingFrom]
  | cons c text ih =>
    rw [nestingFrom]
    cases k with
    | zero => exact Nat.le_max_left _ _
    | succ k =>
      have hlength : (p.visit i c).stillOpen.length =
          if c = '[' then p.stillOpen.length + 1
          else if c = ']' then p.stillOpen.length - 1 else p.stillOpen.length := by
        rw [stillOpen_visit]
        split
        · rfl
        · split
          · exact List.length_tail
          · rfl
      rw [List.take_succ_cons, visitAll_cons, ← hlength]
      exact Nat.le_trans (ih (p.visit i c) (i + 1) k) (Nat.le_max_right _ _)

theorem length_openAt_le (text : List Char) (ip : Nat) : (openAt text ip).length ≤ nesting text :=
  Pairing.length_stillOpen_le _ 0 ip text

example : nesting "a]+[[-]>[[.]]]".toList = 3 := by decide

/-! ## Partners -/

/-- A text has a table of partners exactly when nothing is left open at its end. -/
theorem partners_eq_ok_iff {text : List Char} {table : Array (Option Nat)} :
    partners text = .ok table ↔
      openAt text text.length = [] ∧ (Pairing.upTo text text.length).partners = table := by
  simp only [partners, openAt, Pairing.upTo, List.take_length]
  split <;> simp_all

theorem partners_eq_error_iff {text : List Char} {ip : Nat} :
    partners text = .error ip ↔ (openAt text text.length).head? = some ip := by
  simp only [partners, openAt, Pairing.upTo, List.take_length]
  split <;> simp_all

/-- The brackets that are open at the end of a text are those whose scan finds no end. -/
theorem mem_openAt_length_iff {text : List Char} {o : Nat} :
    o ∈ openAt text text.length ↔
      text[o]? = some '[' ∧ loopEnd? (text.drop (o + 1)) = none := by
  rw [openAt, Pairing.upTo, List.take_length, Pairing.mem_stillOpen_visitAll_iff]
  simp [Pairing.start]

/-- What the table says of a position is settled once the pass is beyond it and the position is not
on the stack. -/
theorem getD_upTo_of_notMem {text : List Char} {ip j : Nat} (hle : ip ≤ text.length) (hj : j < ip)
    (hm : j ∉ openAt text ip) :
    (Pairing.upTo text text.length).partners.getD j none =
      (Pairing.upTo text ip).partners.getD j none := by
  have hlen : text.length = ip + (text.length - ip) := by omega
  rw [hlen, Pairing.upTo_add hle]
  exact Pairing.getD_visitAll_of_notMem (.inl hj) hm

/-- Nothing is recorded for a position that the pass has not reached. -/
theorem getD_upTo_of_le {text : List Char} {ip j : Nat} (h : ip ≤ j) :
    (Pairing.upTo text ip).partners.getD j none = none := by
  have hj : 0 + (text.take ip).length ≤ j := by
    rw [List.length_take]; omega
  rw [Pairing.upTo, Pairing.getD_visitAll_of_notMem (.inr hj) (by simp [Pairing.start])]
  simp only [Pairing.start, Array.getD_eq_getD_getElem?, Array.getElem?_replicate]
  split <;> rfl

section Table

variable {text : List Char} {table : Array (Option Nat)}

/-- A closing bracket and the innermost bracket that is open in front of it are partners. -/
theorem partner_of_openAt (h : partners text = .ok table) {ip o : Nat} {outer : List Nat}
    (hc : text[ip]? = some ']') (ho : openAt text ip = o :: outer) :
    table.getD ip none = some o ∧ table.getD o none = some ip := by
  obtain ⟨-, rfl⟩ := partners_eq_ok_iff.1 h
  have hlt : ip < text.length := (List.getElem?_eq_some_iff.1 hc).1
  have hbelow := List.pairwise_cons.1 (pairwise_openAt (Nat.le_of_lt hlt))
  rw [ho] at hbelow
  have hop : o < ip := hbelow.1 o List.mem_cons_self
  have htail : openAt text (ip + 1) = outer := by rw [openAt_succ_close hc, ho]; rfl
  have hvisit : (Pairing.upTo text (ip + 1)).partners =
      Pairing.join (Pairing.upTo text ip).partners o ip := by
    have heta : Pairing.upTo text ip = ⟨(Pairing.upTo text ip).partners, o :: outer⟩ := by
      rw [← ho]; rfl
    rw [Pairing.upTo_succ hc, heta, Pairing.visit_close_paired]
  have hsize : ip < (Pairing.upTo text ip).partners.size := by rwa [Pairing.size_upTo]
  constructor
  · have hm : ip ∉ openAt text (ip + 1) := fun hmem =>
      absurd (hbelow.1 ip (by rw [htail] at hmem; simp [hmem])) (Nat.lt_irrefl ip)
    rw [getD_upTo_of_notMem hlt (Nat.lt_succ_self ip) hm, hvisit]
    exact Pairing.getD_join_closing hsize
  · have hm : o ∉ openAt text (ip + 1) := fun hmem =>
      absurd ((List.pairwise_cons.1 hbelow.2).1 o (htail ▸ hmem)) (Nat.lt_irrefl o)
    rw [getD_upTo_of_notMem hlt (Nat.lt_succ_of_lt hop) hm, hvisit]
    exact Pairing.getD_join_opening hop hsize

/-- An opening bracket and the end that its scan finds are partners. -/
theorem partner_of_loopEnd (h : partners text = .ok table) {o k : Nat} (ho : text[o]? = some '[')
    (hk : loopEnd? (text.drop (o + 1)) = some k) :
    table.getD o none = some (o + 1 + k) ∧ table.getD (o + 1 + k) none = some o :=
  (partner_of_openAt h (getElem?_of_loopEnd hk) (openAt_loopEnd ho hk)).symm

/-- A position that the pass moves beyond without a change keeps no partner. -/
theorem partner_eq_none (h : partners text = .ok table) {ip : Nat} {c : Char}
    (hc : text[ip]? = some c)
    (hvisit : (Pairing.upTo text ip).visit ip c = Pairing.upTo text ip) :
    table.getD ip none = none := by
  obtain ⟨-, rfl⟩ := partners_eq_ok_iff.1 h
  have hlt : ip < text.length := (List.getElem?_eq_some_iff.1 hc).1
  have hsame : Pairing.upTo text (ip + 1) = Pairing.upTo text ip := by
    rw [Pairing.upTo_succ hc, hvisit]
  have hm : ip ∉ openAt text (ip + 1) := fun hmem => by
    rw [openAt, hsame] at hmem
    exact absurd (lt_of_mem_openAt (Nat.le_of_lt hlt) hmem) (Nat.lt_irrefl ip)
  rw [getD_upTo_of_notMem hlt (Nat.lt_succ_self ip) hm, hsame]
  exact getD_upTo_of_le (Nat.le_refl ip)

/-- A closing bracket in front of which nothing is open has no partner. -/
theorem partner_of_stray (h : partners text = .ok table) {ip : Nat} (hc : text[ip]? = some ']')
    (ho : openAt text ip = []) : table.getD ip none = none := by
  refine partner_eq_none h hc ?_
  have heta : Pairing.upTo text ip = ⟨(Pairing.upTo text ip).partners, []⟩ := by
    rw [← ho]; rfl
  rw [heta, Pairing.visit_close_stray]

theorem partner_of_other (h : partners text = .ok table) {ip : Nat} {c : Char}
    (hc : text[ip]? = some c) (hno : c ≠ '[') (hnc : c ≠ ']') : table.getD ip none = none :=
  partner_eq_none h hc (Pairing.visit_other hno hnc _ _)

theorem partner_of_length_le (h : partners text = .ok table) {ip : Nat} (hip : text.length ≤ ip) :
    table.getD ip none = none := by
  obtain ⟨-, rfl⟩ := partners_eq_ok_iff.1 h
  rw [← Pairing.size_upTo text text.length] at hip
  simp [Array.getD_eq_getD_getElem?, Array.getElem?_eq_none hip]

end Table

/-! ## The pass and the scan agree -/

/-- The pass accepts a text exactly when the scan of each loop finds an end. -/
theorem exists_partners_iff {text : List Char} :
    (∃ table, partners text = .ok table) ↔
      ∀ i, text[i]? = some '[' → (loopEnd? (text.drop (i + 1))).isSome := by
  simp only [partners_eq_ok_iff, exists_and_left, exists_eq', and_true, List.eq_nil_iff_forall_not_mem,
    mem_openAt_length_iff, not_and, Option.isSome_iff_ne_none, ne_eq]

/-- The pass accepts a text exactly when the scan of each loop finds an end, and the partner it then
records for an opening bracket is the end that the scan finds. -/
theorem partners_agree_with_loopEnd? (text : List Char) :
    ((∃ table, partners text = .ok table) ↔
      ∀ i, text[i]? = some '[' → (loopEnd? (text.drop (i + 1))).isSome) ∧
    ∀ table, partners text = .ok table → ∀ i, text[i]? = some '[' →
      ∃ k, loopEnd? (text.drop (i + 1)) = some k ∧ table.getD i none = some (i + 1 + k) := by
  refine ⟨exists_partners_iff, fun table h i hi => ?_⟩
  obtain ⟨k, hk⟩ := Option.isSome_iff_exists.1 (exists_partners_iff.1 ⟨table, h⟩ i hi)
  exact ⟨k, hk, (partner_of_loopEnd h hi hk).1⟩

end TapeMachine.Bracket
