import TapeMachine.Proofs.Block.Reading
import TapeMachine.Proofs.Bracket.Count
import TapeMachine.Proofs.Program.Matching
set_option autoImplicit false

/-!
# Bracket: the end of a loop by counting

Where the scan of a loop ends, said without its count.  A loop ends at the first closing bracket by
which the closing ones outnumber the opening ones, and it has no end if they never do.  What stands in
front of the end is balanced: it consists of plain characters and of whole loops.

`Reached` are the positions that a scan gets to.  In front of each of them the count of the scan is the
`depth` of the text, by which the opening brackets are ahead (`Reached.loopEnd?_eq`,
`Reached.count_add_depth`), so that the count is above 0 wherever it is lowered.

Main statement: the end that a scan finds is the least one, and nothing behind it matters
(`loopEnd?_least_overclosed`).
-/

namespace TapeMachine.Bracket

/-- The text has more closing than opening brackets. -/
def Overclosed (text : List Char) : Prop := text.count '[' < text.count ']'

instance (text : List Char) : Decidable (Overclosed text) :=
  inferInstanceAs (Decidable (_ < _))

/-- The brackets of the text belong together in pairs: it can be read as a sequence of characters other
than brackets and of loops, of which each holds such a sequence. -/
def Balanced (text : List Char) : Prop := ∃ block, Reads false 0 text block

/-- The scan gets to this position: it has not found an end before. -/
def Reached (text : List Char) (j : Nat) : Prop :=
  j ≤ text.length ∧ ∀ k, loopEnd? text = some k → j ≤ k

variable {text other : List Char} {i j : Nat}

/-! ## The count of a scan -/

theorem Reached.of_succ (h : Reached text (j + 1)) : Reached text j :=
  ⟨Nat.le_of_succ_le h.1, fun k hk => Nat.le_of_succ_le (h.2 k hk)⟩

/-- The character that a scan has passed over last. -/
theorem Reached.exists_getElem? (h : Reached text (j + 1)) :
    ∃ c, text[j]? = some c ∧ text.drop j = c :: text.drop (j + 1) ∧
      text.take (j + 1) = text.take j ++ [c] := by
  have hlt : j < text.length := h.1
  have hget : text[j]? = some text[j] := List.getElem?_eq_getElem hlt
  refine ⟨text[j], hget, (List.getElem_cons_drop hlt).symm, ?_⟩
  rw [List.take_add_one, hget, Option.toList_some]

/-- A closing bracket is the end of a scan that comes to it with a count of 0. -/
theorem loopEnd?_of_scan_zero (hc : text[j]? = some ']')
    (hscan : loopEnd? text = (loopEndFrom 0 (text.drop j)).map (· + j)) :
    loopEnd? text = some j := by
  obtain ⟨hlt, hget⟩ := List.getElem?_eq_some_iff.1 hc
  rw [hscan, ← List.getElem_cons_drop hlt, hget, loopEndFrom_close_zero, Option.map_some,
    Nat.zero_add]

/-- A scan that gets beyond a closing bracket has come to it with a count above 0. -/
theorem Reached.scan_ne_zero (h : Reached text (j + 1)) (hc : text[j]? = some ']') :
    loopEnd? text ≠ (loopEndFrom 0 (text.drop j)).map (· + j) :=
  fun hscan => Nat.not_succ_le_self j (h.2 j (loopEnd?_of_scan_zero hc hscan))

/-- From a position that it gets to, a scan goes on with the depth of the text in front of it as its
count. -/
theorem Reached.loopEnd?_eq (h : Reached text j) :
    loopEnd? text = (loopEndFrom (depth (text.take j)) (text.drop j)).map (· + j) := by
  induction j with
  | zero => exact (Option.map_id' ..).symm
  | succ j ih =>
    have hscan := ih h.of_succ
    obtain ⟨c, hget, hdrop, htake⟩ := h.exists_getElem?
    have hsucc (end? : Option Nat) : (end?.map (· + 1)).map (· + j) = end?.map (· + (j + 1)) := by
      rw [Option.map_map]
      exact Option.map_congr fun k _ => Nat.add_right_comm k 1 j
    rw [htake, depth_concat, deepen]
    rcases bracket_cases c with rfl | rfl | ⟨ho, hc⟩
    · rw [hscan, hdrop, loopEndFrom_open, hsucc, if_pos rfl]
    · cases hdepth : depth (text.take j) with
      | zero =>
        rw [hdepth] at hscan
        exact absurd hscan (h.scan_ne_zero hget)
      | succ d =>
        rw [hscan, hdrop, hdepth, loopEndFrom_close_succ, hsucc, if_neg (by decide), if_pos rfl,
          Nat.add_sub_cancel]
    · rw [hscan, hdrop, loopEndFrom_other ho hc, hsucc, if_neg ho, if_neg hc]

/-- Something is open in front of a closing bracket that a scan passes over. -/
theorem Reached.depth_pos (h : Reached text (j + 1)) (hc : text[j]? = some ']') :
    0 < depth (text.take j) := by
  refine Nat.pos_of_ne_zero fun hzero => ?_
  have hscan := h.of_succ.loopEnd?_eq
  rw [hzero] at hscan
  exact h.scan_ne_zero hc hscan

/-- In front of a position that a scan gets to, the opening brackets are ahead by the depth. -/
theorem Reached.count_add_depth (h : Reached text j) :
    (text.take j).count ']' + depth (text.take j) = (text.take j).count '[' := by
  induction j with
  | zero => rfl
  | succ j ih =>
    have hcount := ih h.of_succ
    obtain ⟨c, hget, -, htake⟩ := h.exists_getElem?
    rw [htake, depth_concat, deepen, List.count_append, List.count_append]
    rcases bracket_cases c with rfl | rfl | ⟨ho, hc⟩
    · rw [if_pos rfl, List.count_cons_of_ne (by decide), List.count_nil,
        List.count_singleton_self]
      omega
    · have hpos := h.depth_pos hget
      rw [if_neg (by decide), if_pos rfl, List.count_singleton_self,
        List.count_cons_of_ne (by decide), List.count_nil]
      omega
    · rw [if_neg ho, if_neg hc, List.count_cons_of_ne hc, List.count_cons_of_ne ho]
      exact hcount

theorem Reached.not_overclosed (h : Reached text j) : ¬Overclosed (text.take j) := by
  have hcount := h.count_add_depth
  rw [Overclosed]
  omega

/-- A closing bracket that a scan gets to is its end exactly if nothing is open in front of it. -/
theorem Reached.depth_eq_zero_iff (h : Reached text j) (hc : text[j]? = some ']') :
    depth (text.take j) = 0 ↔ loopEnd? text = some j := by
  constructor
  · intro hzero
    have hscan := h.loopEnd?_eq
    rw [hzero] at hscan
    exact loopEnd?_of_scan_zero hc hscan
  · intro hend
    have hbody := count_take_of_loopEndFrom hend
    have hcount := h.count_add_depth
    omega

/-! ## The least end -/

theorem lt_length_of_loopEnd? (h : loopEnd? text = some i) : i < text.length :=
  (List.getElem?_eq_some_iff.1 (getElem?_of_loopEndFrom h)).1

theorem reached_of_le (h : loopEnd? text = some i) (hj : j ≤ i) : Reached text j := by
  refine ⟨Nat.le_trans hj (Nat.le_of_lt (lt_length_of_loopEnd? h)), fun k hk => ?_⟩
  obtain rfl := Option.some.inj (h.symm.trans hk)
  exact hj

theorem reached_of_eq_none (h : loopEnd? text = none) (hj : j ≤ text.length) : Reached text j :=
  ⟨hj, fun k hk => by cases h.symm.trans hk⟩

/-- Up to its end and with it, a scan has met one closing bracket too many. -/
theorem count_take_succ_of_loopEnd? (h : loopEnd? text = some i) :
    (text.take (i + 1)).count ']' = (text.take (i + 1)).count '[' + 1 := by
  have hbody := count_take_of_loopEndFrom h
  rw [List.take_add_one, getElem?_of_loopEndFrom h, Option.toList_some, List.count_append,
    List.count_append, List.count_singleton_self, List.count_cons_of_ne (by decide),
    List.count_nil, hbody]

theorem overclosed_of_loopEnd? (h : loopEnd? text = some i) : Overclosed (text.take (i + 1)) := by
  rw [Overclosed, count_take_succ_of_loopEnd? h]
  exact Nat.lt_succ_self _

theorem le_of_overclosed (h : loopEnd? text = some i) (hj : Overclosed (text.take (j + 1))) :
    i ≤ j :=
  Nat.le_of_not_lt fun hlt => (reached_of_le h hlt).not_overclosed hj

/-- A loop ends at the first character up to which its text is overclosed. -/
theorem loopEnd?_eq_some_iff : loopEnd? text = some i ↔
    (i < text.length ∧ Overclosed (text.take (i + 1))) ∧
      ∀ j, Overclosed (text.take (j + 1)) → i ≤ j := by
  constructor
  · intro h
    exact ⟨⟨lt_length_of_loopEnd? h, overclosed_of_loopEnd? h⟩, fun j => le_of_overclosed h⟩
  · rintro ⟨⟨hlt, hover⟩, hleast⟩
    cases h : loopEnd? text with
    | none => exact absurd hover (reached_of_eq_none h hlt).not_overclosed
    | some k =>
      have hki := le_of_overclosed h hover
      have hik := hleast k (overclosed_of_loopEnd? h)
      rw [Nat.le_antisymm hki hik]

/-- A loop has no end if nothing that its text starts with is overclosed. -/
theorem loopEnd?_eq_none_iff : loopEnd? text = none ↔ ∀ s, s <+: text → ¬Overclosed s := by
  constructor
  · intro h s hs
    rw [List.prefix_iff_eq_take.1 hs]
    exact (reached_of_eq_none h hs.length_le).not_overclosed
  · intro hnever
    cases h : loopEnd? text with
    | none => rfl
    | some k => exact absurd (overclosed_of_loopEnd? h) (hnever _ (List.take_prefix _ _))

/-! ## What stands in front of the end -/

/-- A closing bracket ends a loop exactly if the text in front of it is balanced. -/
theorem loopEnd?_eq_some_iff_balanced :
    loopEnd? text = some i ↔ text[i]? = some ']' ∧ Balanced (text.take i) := by
  constructor
  · intro h
    exact ⟨getElem?_of_loopEndFrom h, exists_reads_body 0 h⟩
  · rintro ⟨hc, block, hblock⟩
    obtain ⟨hlt, hget⟩ := List.getElem?_eq_some_iff.1 hc
    have hend := hblock.loopEnd? (text.drop (i + 1))
    rwa [← hget, List.getElem_cons_drop, List.take_append_drop,
      List.length_take_of_le (Nat.le_of_lt hlt)] at hend

/-- Texts that agree up to the end of a loop have the same end. -/
theorem loopEnd?_of_take_eq (h : loopEnd? text = some i)
    (hsame : other.take (i + 1) = text.take (i + 1)) : loopEnd? other = some i := by
  have hlt : i < i + 1 := Nat.lt_succ_self i
  obtain ⟨hc, hbalanced⟩ := loopEnd?_eq_some_iff_balanced.1 h
  refine loopEnd?_eq_some_iff_balanced.2 ⟨?_, ?_⟩
  · rw [← List.getElem?_take_of_lt hlt, hsame, List.getElem?_take_of_lt hlt, hc]
  · have htake := congrArg (List.take i) hsame
    rw [List.take_take, List.take_take, Nat.min_eq_left (Nat.le_succ i)] at htake
    rwa [htake]

/-- The scan of a loop:

* the end that it finds is the least index with which the text has more closing than opening brackets;
* these are then one more, the last of them stands at the end, and the text in front of it is balanced;
* it finds none if and only if nothing that the text starts with has more closing brackets;
* at each position that it gets to, its count is the depth of the text in front of the position, by
  which the opening brackets are ahead, and the count is 0 at a closing bracket only if this is the end,
  where the count is not lowered any more;
* the end depends on the text up to it only, and stays where it is if something is appended. -/
theorem loopEnd?_least_overclosed (code : List Char) :
    (∀ i, loopEnd? code = some i ↔
      (i < code.length ∧ Overclosed (code.take (i + 1))) ∧
        ∀ j, Overclosed (code.take (j + 1)) → i ≤ j) ∧
    (∀ i, loopEnd? code = some i →
      (code.take (i + 1)).count ']' = (code.take (i + 1)).count '[' + 1 ∧ code[i]? = some ']' ∧
        Balanced (code.take i)) ∧
    (loopEnd? code = none ↔ ∀ s, s <+: code → ¬Overclosed s) ∧
    (∀ j, Reached code j →
      loopEnd? code = (loopEndFrom (depth (code.take j)) (code.drop j)).map (· + j) ∧
        (code.take j).count ']' + depth (code.take j) = (code.take j).count '[' ∧
        (code[j]? = some ']' → (depth (code.take j) = 0 ↔ loopEnd? code = some j))) ∧
    (∀ i, loopEnd? code = some i → ∀ other : List Char,
      other.take (i + 1) = code.take (i + 1) → loopEnd? other = some i) ∧
    ∀ i more, loopEnd? code = some i → loopEnd? (code ++ more) = some i := by
  refine ⟨fun i => loopEnd?_eq_some_iff, fun i h => ?_, loopEnd?_eq_none_iff, fun j h => ?_,
    fun i h other => loopEnd?_of_take_eq h, fun i more h => loopEnd?_of_take_eq h ?_⟩
  · exact ⟨count_take_succ_of_loopEnd? h, loopEnd?_eq_some_iff_balanced.1 h⟩
  · exact ⟨h.loopEnd?_eq, h.count_add_depth, h.depth_eq_zero_iff⟩
  · exact List.take_append_of_le_length (lt_length_of_loopEnd? h)

example : loopEnd? ">[-]<-]+]".toList = some 6 := by decide

end TapeMachine.Bracket
