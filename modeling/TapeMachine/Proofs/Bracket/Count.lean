import TapeMachine.Program
import TapeMachine.Proofs.Bracket.Stack
set_option autoImplicit false

/-!
# Bracket: the stack replaced by counting

Whether a text is accepted, and where the loop that is reported begins, can be said without a stack.
A suffix with more opening than closing brackets has a loop that is never closed, whatever stands in
front of it: a stray closing bracket further left never helps.  `Overfull text i` is this condition on
the suffix that starts at `i`.

Main statement: a text is accepted exactly when no suffix is overfull, and is otherwise reported with
the largest index whose suffix is (`ofSource_eq_error_iff_last_overfull`).
-/

namespace TapeMachine.Bracket

/-- The text from position `i` on has more opening than closing brackets. -/
def Overfull (text : List Char) (i : Nat) : Prop :=
  (text.drop i).count ']' < (text.drop i).count '['

instance (text : List Char) (i : Nat) : Decidable (Overfull text i) :=
  inferInstanceAs (Decidable (_ < _))

/-- The largest index from which on the text is overfull. -/
def LastOverfull (text : List Char) (ip : Nat) : Prop :=
  Overfull text ip ∧ ∀ i, Overfull text i → i ≤ ip

/-- The brackets of the two texts are the same and stand at the same places. -/
def SameBrackets (a b : List Char) : Prop :=
  ∀ (i : Nat) (c : Char), c = '[' ∨ c = ']' → (a[i]? = some c ↔ b[i]? = some c)

/-! ## What a scan counts -/

/-- In front of the end that a scan finds, it has met as many brackets of one kind as of the other,
those apart that were open at its start. -/
theorem count_take_of_loopEndFrom {d k : Nat} {text : List Char}
    (h : loopEndFrom d text = some k) :
    (text.take k).count ']' = (text.take k).count '[' + d := by
  induction text generalizing d k with
  | nil => simp at h
  | cons c text ih =>
    rcases bracket_cases c with rfl | rfl | ⟨ho, hc⟩
    · rw [loopEndFrom_open, Option.map_eq_some_iff] at h
      obtain ⟨j, hj, rfl⟩ := h
      rw [List.take_succ_cons, List.count_cons_of_ne (by decide), List.count_cons_self, ih hj]
      omega
    · cases d with
      | zero =>
        rw [loopEndFrom_close_zero, Option.some.injEq] at h
        subst h
        rfl
      | succ d =>
        rw [loopEndFrom_close_succ, Option.map_eq_some_iff] at h
        obtain ⟨j, hj, rfl⟩ := h
        rw [List.take_succ_cons, List.count_cons_self, List.count_cons_of_ne (by decide), ih hj]
        omega
    · rw [loopEndFrom_other ho hc, Option.map_eq_some_iff] at h
      obtain ⟨j, hj, rfl⟩ := h
      rw [List.take_succ_cons, List.count_cons_of_ne hc, List.count_cons_of_ne ho, ih hj]

/-- A scan that finds no end has met too few closing brackets. -/
theorem count_le_of_loopEndFrom {d : Nat} {text : List Char} (h : loopEndFrom d text = none) :
    text.count ']' ≤ text.count '[' + d := by
  induction text generalizing d with
  | nil => simp
  | cons c text ih =>
    rcases bracket_cases c with rfl | rfl | ⟨ho, hc⟩
    · rw [loopEndFrom_open, Option.map_eq_none_iff] at h
      have := ih h
      rw [List.count_cons_of_ne (by decide), List.count_cons_self]
      omega
    · cases d with
      | zero => simp at h
      | succ d =>
        rw [loopEndFrom_close_succ, Option.map_eq_none_iff] at h
        have := ih h
        rw [List.count_cons_self, List.count_cons_of_ne (by decide)]
        omega
    · rw [loopEndFrom_other ho hc, Option.map_eq_none_iff] at h
      rw [List.count_cons_of_ne hc, List.count_cons_of_ne ho]
      exact ih h

/-- A text whose loops are all closed has enough closing brackets. -/
theorem count_le_of_closed {text : List Char}
    (h : ∀ i, text[i]? = some '[' → (loopEnd? (text.drop (i + 1))).isSome) :
    text.count '[' ≤ text.count ']' := by
  -- a loop is dropped as a whole, so the induction is on the length of what is left
  induction hn : text.length using Nat.strongRecOn generalizing text with
  | ind n ih =>
    cases text with
    | nil => simp
    | cons c text =>
      subst hn
      have hdrop (k : Nat) : (text.drop k).count '[' ≤ (text.drop k).count ']' := by
        refine ih _ (length_drop_lt c text k) (fun i hi => ?_) rfl
        rw [List.getElem?_drop] at hi
        rw [List.drop_drop]
        exact h (k + i + 1) hi
      rcases bracket_cases c with rfl | rfl | ⟨ho, hc⟩
      · have hclosed : ∃ k, loopEnd? text = some k := Option.isSome_iff_exists.1 (h 0 rfl)
        obtain ⟨k, hk⟩ := hclosed
        have hbody := count_take_of_loopEndFrom hk
        have hrest := hdrop (k + 1)
        rw [eq_append_of_loopEndFrom hk]
        simp only [List.count_cons_self, List.count_append, List.count_cons_of_ne, ne_eq,
          Char.reduceEq, not_false_eq_true]
        omega
      · have := hdrop 0
        rw [List.count_cons_self, List.count_cons_of_ne (by decide)]
        exact Nat.le_succ_of_le this
      · rw [List.count_cons_of_ne ho, List.count_cons_of_ne hc]
        exact hdrop 0

/-! ## Overfull suffixes -/

/-- A text is not overfull from a position on from which on every loop is closed. -/
theorem not_overfull_of_closed {text : List Char} {i : Nat}
    (h : ∀ j, i ≤ j → text[j]? = some '[' → (loopEnd? (text.drop (j + 1))).isSome) :
    ¬ Overfull text i := by
  refine Nat.not_lt_of_le (count_le_of_closed fun j hj => ?_)
  rw [List.getElem?_drop] at hj
  rw [List.drop_drop]
  exact h (i + j) (Nat.le_add_right i j) hj

/-- A bracket that is left open begins an overfull suffix. -/
theorem overfull_of_mem_openAt {text : List Char} {o : Nat} (h : o ∈ openAt text text.length) :
    Overfull text o := by
  obtain ⟨ho, hscan⟩ := mem_openAt_length_iff.1 h
  obtain ⟨hlt, hget⟩ := List.getElem?_eq_some_iff.1 ho
  have := count_le_of_loopEndFrom hscan
  rw [Overfull, ← List.getElem_cons_drop hlt, hget, List.count_cons_of_ne (by decide),
    List.count_cons_self]
  omega

theorem closed_of_notMem_openAt {text : List Char} {i : Nat} (h : i ∉ openAt text text.length)
    (hi : text[i]? = some '[') : (loopEnd? (text.drop (i + 1))).isSome :=
  Option.isSome_iff_ne_none.2 fun hnone => h (mem_openAt_length_iff.2 ⟨hi, hnone⟩)

/-- Beyond the innermost bracket that is left open every loop is closed. -/
theorem closed_of_head?_lt {text : List Char} {ip : Nat}
    (h : (openAt text text.length).head? = some ip) {i : Nat} (hlt : ip < i)
    (hi : text[i]? = some '[') : (loopEnd? (text.drop (i + 1))).isSome := by
  obtain ⟨outer, houter⟩ := List.head?_eq_some_iff.1 h
  have hsorted := pairwise_openAt (Nat.le_refl text.length)
  rw [houter] at hsorted
  refine closed_of_notMem_openAt (fun hmem => ?_) hi
  rcases List.mem_cons.1 (houter ▸ hmem) with rfl | hmem
  · exact Nat.lt_irrefl i hlt
  · exact Nat.lt_asymm hlt ((List.pairwise_cons.1 (List.pairwise_cons.1 hsorted).2).1 i hmem)

/-- The innermost bracket that is left open begins the last overfull suffix. -/
theorem lastOverfull_of_head? {text : List Char} {ip : Nat}
    (h : (openAt text text.length).head? = some ip) : LastOverfull text ip := by
  refine ⟨overfull_of_mem_openAt (List.mem_of_mem_head? h), fun i hi => ?_⟩
  refine Nat.le_of_not_lt fun hlt => not_overfull_of_closed (fun j hj hopen => ?_) hi
  exact closed_of_head?_lt h (Nat.lt_of_lt_of_le hlt hj) hopen

theorem not_overfull_of_openAt_eq_nil {text : List Char} (h : openAt text text.length = [])
    (i : Nat) : ¬ Overfull text i :=
  not_overfull_of_closed fun _ _ hopen => closed_of_notMem_openAt (by simp [h]) hopen

theorem LastOverfull.unique {text : List Char} {i j : Nat} (hi : LastOverfull text i)
    (hj : LastOverfull text j) : i = j :=
  Nat.le_antisymm (hj.2 i hi.1) (hi.2 j hj.1)

theorem head?_openAt_eq_some_iff {text : List Char} {ip : Nat} :
    (openAt text text.length).head? = some ip ↔ LastOverfull text ip := by
  refine ⟨lastOverfull_of_head?, fun h => ?_⟩
  cases hopen : openAt text text.length with
  | nil => exact absurd h.1 (not_overfull_of_openAt_eq_nil hopen ip)
  | cons top outer =>
    have htop : (openAt text text.length).head? = some top := by rw [hopen]; rfl
    rw [List.head?_cons, h.unique (lastOverfull_of_head? htop)]

/-- Nothing is left open exactly when no suffix is overfull. -/
theorem openAt_eq_nil_iff {text : List Char} :
    openAt text text.length = [] ↔ ∀ s, s <:+ text → s.count '[' ≤ s.count ']' := by
  constructor
  · intro h s hs
    rw [List.suffix_iff_eq_drop.1 hs]
    exact Nat.le_of_not_lt (not_overfull_of_openAt_eq_nil h _)
  · intro h
    refine List.eq_nil_iff_forall_not_mem.2 fun o ho => ?_
    exact Nat.not_lt_of_le (h _ (List.drop_suffix o text)) (overfull_of_mem_openAt ho)

/-! ## Only brackets and their places matter -/

theorem count_eq_of_getElem?_iff {a b : List Char} {c : Char}
    (h : ∀ i : Nat, a[i]? = some c ↔ b[i]? = some c) : a.count c = b.count c := by
  induction a generalizing b with
  | nil =>
    refine (List.count_eq_zero.2 fun hmem => ?_).symm
    obtain ⟨i, hi⟩ := List.mem_iff_getElem?.1 hmem
    exact absurd ((h i).2 hi) (by simp)
  | cons x a ih =>
    cases b with
    | nil =>
      refine List.count_eq_zero.2 fun hmem => ?_
      obtain ⟨i, hi⟩ := List.mem_iff_getElem?.1 hmem
      exact absurd ((h i).1 hi) (by simp)
    | cons y b =>
      have hhead : x = c ↔ y = c := by simpa using h 0
      have htail : a.count c = b.count c := ih fun i => by simpa using h (i + 1)
      simp [List.count_cons, htail, hhead]

theorem SameBrackets.overfull_iff {a b : List Char} (h : SameBrackets a b) (i : Nat) :
    Overfull a i ↔ Overfull b i := by
  have hcount (c : Char) (hc : c = '[' ∨ c = ']') : (a.drop i).count c = (b.drop i).count c := by
    refine count_eq_of_getElem?_iff fun j => ?_
    rw [List.getElem?_drop, List.getElem?_drop]
    exact h (i + j) c hc
  rw [Overfull, Overfull, hcount '[' (.inl rfl), hcount ']' (.inr rfl)]

theorem SameBrackets.lastOverfull_iff {a b : List Char} (h : SameBrackets a b) (ip : Nat) :
    LastOverfull a ip ↔ LastOverfull b ip := by
  simp only [LastOverfull, h.overfull_iff]

end TapeMachine.Bracket

namespace TapeMachine.Program

open TapeMachine.Bracket

theorem exists_ofText_iff {text : List Char} :
    (∃ p, ofText text = .ok p) ↔ openAt text text.length = [] := by
  cases h : Bracket.partners text with
  | ok table =>
    have := (Bracket.partners_eq_ok_iff.1 h).1
    simp [ofText, h, this]
  | error ip =>
    have := partners_eq_error_iff.1 h
    have hne : openAt text text.length ≠ [] := fun hnil => by simp [hnil] at this
    simp [ofText, h, hne]

theorem ofText_eq_error_iff {text : List Char} {fault : Fault} :
    ofText text = .error fault ↔
      ∃ ip, fault = .unclosedLoop ip ∧ (openAt text text.length).head? = some ip := by
  simp only [← partners_eq_error_iff]
  cases h : Bracket.partners text <;> simp [ofText, h, eq_comm]

/-- A source is accepted exactly when each of its suffixes has as many closing as opening brackets at
least.  Otherwise the fault names the largest index from which on this fails; an opening bracket
stands there, and all later ones are closed.  Sources that have the same brackets at the same places
are treated alike. -/
theorem ofSource_eq_error_iff_last_overfull (source : String) :
    ((∃ p, ofSource source = .ok p) ↔
      ∀ s, s <:+ source.toList → s.count '[' ≤ s.count ']') ∧
    (∀ fault, ofSource source = .error fault ↔
      ∃ ip, fault = .unclosedLoop ip ∧ LastOverfull source.toList ip) ∧
    (∀ ip, ofSource source = .error (.unclosedLoop ip) →
      ip < source.toList.length ∧ source.toList[ip]? = some '[' ∧
      ∀ i, ip < i → source.toList[i]? = some '[' →
        (loopEnd? (source.toList.drop (i + 1))).isSome) ∧
    ∀ other : String, SameBrackets source.toList other.toList →
      ∀ fault, ofSource source = .error fault ↔ ofSource other = .error fault := by
  have herror (source : String) (fault : Fault) : ofSource source = .error fault ↔
      ∃ ip, fault = .unclosedLoop ip ∧ LastOverfull source.toList ip := by
    simp only [ofSource, ofText_eq_error_iff, head?_openAt_eq_some_iff]
  refine ⟨exists_ofText_iff.trans openAt_eq_nil_iff, herror source, fun ip h => ?_,
    fun other hsame fault => ?_⟩
  · obtain ⟨_, hip, hhead⟩ := ofText_eq_error_iff.1 h
    cases hip
    have hopen := (mem_openAt_length_iff.1 (List.mem_of_mem_head? hhead)).1
    exact ⟨(List.getElem?_eq_some_iff.1 hopen).1, hopen, fun i => closed_of_head?_lt hhead⟩
  · simp only [herror, hsame.lastOverfull_iff]

end TapeMachine.Program
