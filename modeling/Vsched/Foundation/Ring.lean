import Mathlib.Tactic

/-!
# A list laid out on a ring of slots

A ring has `cap` slots, numbered from `0`, and `window cap head l i` reads slot
`i` when the list `l` is laid out from slot `head` on: the list's element there,
or `none` where the list does not reach. Adding or removing an element at
either end of the list changes one slot of the window, which is all that the
lemmas below say.
-/

namespace Ring

/-- The slot after `i`. -/
def next (cap i : ℕ) : ℕ := (i + 1) % cap

/-- The slot before `i`. -/
def prev (cap i : ℕ) : ℕ := if i = 0 then cap - 1 else i - 1

/-- How many slots after `head` the slot `i` comes. -/
def offset (cap head i : ℕ) : ℕ := if head ≤ i then i - head else i + cap - head

/-- The slot that comes `n` slots after `head`, for `n ≤ cap`. -/
def advance (cap head n : ℕ) : ℕ :=
  if head + n < cap then head + n else head + n - cap

/-- What slot `i` holds when `l` is laid out from slot `head` on. -/
def window {α : Type*} (cap head : ℕ) (l : List α) (i : ℕ) : Option α :=
  l[offset cap head i]?

variable {α : Type*} {cap head i n : ℕ} {l : List α} {x : α}

theorem next_eq (hi : i < cap) : next cap i = if i + 1 = cap then 0 else i + 1 := by
  unfold next
  split_ifs with h
  · rw [h, Nat.mod_self]
  · exact Nat.mod_eq_of_lt (by omega)

theorem next_lt (hi : i < cap) : next cap i < cap :=
  Nat.mod_lt _ (by omega)

theorem prev_lt (hi : i < cap) : prev cap i < cap := by
  unfold prev
  split_ifs <;> omega

theorem advance_lt (hh : head < cap) (hn : n ≤ cap) : advance cap head n < cap := by
  unfold advance
  split_ifs <;> omega

theorem advance_eq_mod (hh : head < cap) (hn : n ≤ cap) :
    advance cap head n = (head + n) % cap := by
  unfold advance
  split_ifs with h
  · exact (Nat.mod_eq_of_lt h).symm
  · rw [Nat.mod_eq_sub_mod (by omega), Nat.mod_eq_of_lt (by omega)]

theorem advance_zero (hh : head < cap) : advance cap head 0 = head := by
  simp [advance, hh]

theorem next_advance (hh : head < cap) (hn : n < cap) :
    next cap (advance cap head n) = advance cap head (n + 1) := by
  rw [next_eq (advance_lt hh (Nat.le_of_lt hn))]
  unfold advance
  split_ifs <;> omega

theorem prev_advance (hh : head < cap) (hn : n < cap) :
    prev cap (advance cap head (n + 1)) = advance cap head n := by
  unfold prev advance
  split_ifs <;> first | contradiction | omega

theorem advance_next (hh : head < cap) (hn : n < cap) :
    advance cap (next cap head) n = advance cap head (n + 1) := by
  rw [next_eq hh]
  unfold advance
  split_ifs <;> omega

theorem advance_prev (hn : n < cap) :
    advance cap (prev cap head) (n + 1) = advance cap head n := by
  unfold prev advance
  split_ifs <;> omega

/-- Two different numbers of steps below `cap` lead to two different slots. -/
theorem advance_inj {m : ℕ} (hm : m < cap) (hn : n < cap) :
    advance cap head m = advance cap head n ↔ m = n := by
  unfold advance
  split_ifs <;> omega

theorem offset_lt (hi : i < cap) (hh : head < cap) : offset cap head i < cap := by
  unfold offset
  split_ifs <;> omega

theorem offset_advance (hh : head < cap) (hn : n < cap) :
    offset cap head (advance cap head n) = n := by
  unfold offset advance
  split_ifs <;> omega

theorem advance_offset (hi : i < cap) (hh : head < cap) :
    advance cap head (offset cap head i) = i := by
  unfold offset advance
  split_ifs <;> omega

theorem offset_prev (hi : i < cap) (hh : head < cap) :
    offset cap (prev cap head) i =
      if i = prev cap head then 0 else offset cap head i + 1 := by
  unfold offset prev
  split_ifs <;> omega

theorem offset_next (hi : i < cap) (hh : head < cap) :
    offset cap (next cap head) i =
      if i = head then cap - 1 else offset cap head i - 1 := by
  rw [next_eq hh]
  unfold offset
  split_ifs <;> omega

@[simp] theorem window_nil : window cap head ([] : List α) i = none := rfl

theorem window_advance (hh : head < cap) (hn : n < cap) :
    window cap head l (advance cap head n) = l[n]? := by
  rw [window, offset_advance hh hn]

/-- The slot just past the list is free. -/
theorem window_end (hh : head < cap) (hl : l.length < cap) :
    window cap head l (advance cap head l.length) = none := by
  rw [window_advance hh hl]
  simp

/-- The slot just before the list is free. -/
theorem window_prev (hh : head < cap) (hl : l.length < cap) :
    window cap head l (prev cap head) = none := by
  have hoff : offset cap head (prev cap head) = cap - 1 := by
    unfold offset prev
    split_ifs <;> omega
  rw [window, hoff, List.getElem?_eq_none (by omega)]

theorem window_cons (hi : i < cap) (hh : head < cap) :
    window cap (prev cap head) (x :: l) i =
      if i = prev cap head then some x else window cap head l i := by
  rw [window, window, offset_prev hi hh]
  split_ifs <;> simp

theorem window_append (hi : i < cap) (hh : head < cap) (hl : l.length < cap) :
    window cap head (l ++ [x]) i =
      if i = advance cap head l.length then some x else window cap head l i := by
  have hoff : i = advance cap head l.length ↔ offset cap head i = l.length := by
    rw [← advance_inj (offset_lt hi hh) hl, advance_offset hi hh]
  simp only [window, hoff]
  split_ifs with h
  · simp [h]
  · rcases Nat.lt_or_gt_of_ne h with hlt | hgt
    · rw [List.getElem?_append_left hlt]
    · rw [List.getElem?_eq_none (by simp; omega), List.getElem?_eq_none (Nat.le_of_lt hgt)]

theorem window_tail (hi : i < cap) (hh : head < cap) (hl : l.length ≤ cap) :
    window cap (next cap head) l.tail i =
      if i = head then none else window cap head l i := by
  rw [window, window, offset_next hi hh, List.getElem?_tail]
  split_ifs with h
  · exact List.getElem?_eq_none (by omega)
  · have hpos : 0 < offset cap head i := by
      unfold offset
      split_ifs <;> omega
    rw [Nat.sub_add_cancel hpos]

theorem window_dropLast (hi : i < cap) (hh : head < cap) (hl : l.length ≤ cap) :
    window cap head l.dropLast i =
      if i = prev cap (advance cap head l.length) then none
      else window cap head l i := by
  rcases Nat.eq_zero_or_pos l.length with hzero | hpos
  · rw [List.length_eq_zero_iff.mp hzero]
    simp
  · obtain ⟨n, hn⟩ : ∃ n, l.length = n + 1 := ⟨l.length - 1, by omega⟩
    have hoff : i = advance cap head n ↔ offset cap head i = n := by
      rw [← advance_inj (offset_lt hi hh) (by omega), advance_offset hi hh]
    rw [hn, prev_advance hh (by omega)]
    simp only [hoff, window, List.getElem?_dropLast, hn, Nat.add_sub_cancel]
    by_cases heq : offset cap head i = n
    · simp [heq]
    · by_cases hlt : offset cap head i < n
      · simp [heq, hlt]
      · rw [if_neg hlt, if_neg heq, List.getElem?_eq_none (by omega)]

/-- The first slot of the window holds the first element of the list. -/
theorem window_head (hh : head < cap) : window cap head l head = l.head? := by
  have h := window_advance (l := l) hh (Nat.lt_of_le_of_lt (Nat.zero_le _) hh)
  rw [advance_zero hh] at h
  rw [h, List.head?_eq_getElem?]

/-- The last slot of the window holds the last element of the list. -/
theorem window_last (hh : head < cap) (hpos : 0 < l.length) (hl : l.length ≤ cap) :
    window cap head l (prev cap (advance cap head l.length)) = l.getLast? := by
  obtain ⟨n, hn⟩ : ∃ n, l.length = n + 1 := ⟨l.length - 1, by omega⟩
  rw [hn, prev_advance hh (by omega), window_advance hh (by omega),
    List.getLast?_eq_getElem?, hn, Nat.add_sub_cancel]

/-- The two ends of the window meet only around an empty list. -/
theorem advance_eq_head_iff (hh : head < cap) (hn : n < cap) :
    advance cap head n = head ↔ n = 0 := by
  have h : advance cap head n = advance cap head 0 ↔ n = 0 :=
    advance_inj hn (Nat.lt_of_le_of_lt (Nat.zero_le _) hh)
  rwa [advance_zero hh] at h

/-- The slot before the window is the slot after it exactly when one slot is
left. -/
theorem prev_eq_advance_iff (hh : head < cap) (hn : n < cap) :
    prev cap head = advance cap head n ↔ n + 1 = cap := by
  unfold prev advance
  split_ifs <;> omega

theorem advance_succ_eq_head_iff :
    advance cap head (n + 1) = head ↔ n + 1 = cap := by
  unfold advance
  split_ifs <;> omega

end Ring
