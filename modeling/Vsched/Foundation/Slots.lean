import Mathlib.Tactic

/-!
# What a row of numbered slots holds

`f i` is what slot `i` holds, `none` for a free slot, and `contents n f` lists
what the first `n` slots hold, in the order of the slots. Filling, emptying or
refilling one slot changes the list by one element, up to its order.
-/

namespace Slots

variable {β γ : Type*} {n i : ℕ} {f g : ℕ → Option β} {o : Option β} {x y : β}

/-- What the slots below `n` hold. -/
def contents (n : ℕ) (f : ℕ → Option β) : List β :=
  (List.range n).filterMap f

theorem contents_succ : contents (n + 1) f = contents n f ++ (f n).toList := by
  rw [contents, List.range_succ, List.filterMap_append, contents]
  cases hn : f n <;> simp [hn]

theorem mem_contents : x ∈ contents n f ↔ ∃ i < n, f i = some x := by
  simp [contents]

theorem contents_congr (h : ∀ i, i < n → f i = g i) : contents n f = contents n g := by
  refine List.filterMap_congr ?_
  intro i hi
  exact h i (List.mem_range.mp hi)

/-- Slots that are free add nothing. -/
theorem contents_widen {n' : ℕ} (hle : n ≤ n') (h : ∀ i, n ≤ i → f i = none) :
    contents n' f = contents n f := by
  induction n', hle using Nat.le_induction with
  | base => rfl
  | succ m hm ih => rw [contents_succ, ih, h m hm, Option.toList_none, List.append_nil]

theorem contents_map (φ : β → γ) :
    contents n (fun i => (f i).map φ) = (contents n f).map φ := by
  induction n with
  | zero => rfl
  | succ n ih => rw [contents_succ, contents_succ, ih, List.map_append]; cases f n <;> rfl

/-- Replacing what slot `i` holds takes it out of the list and puts the new item
in. -/
theorem contents_update (f : ℕ → Option β) (o : Option β) (hi : i < n) :
    (contents n (Function.update f i o) ++ (f i).toList).Perm (contents n f ++ o.toList) := by
  induction n with
  | zero => omega
  | succ n ih =>
      rw [contents_succ, contents_succ]
      by_cases hin : i = n
      · subst hin
        have hsame : contents i (Function.update f i o) = contents i f :=
          contents_congr fun j hj => Function.update_of_ne (Nat.ne_of_lt hj) _ _
        rw [hsame, Function.update_self, List.append_assoc, List.append_assoc]
        exact List.perm_append_comm.append_left _
      · rw [Function.update_of_ne (Ne.symm hin), List.append_assoc, List.append_assoc]
        calc List.Perm (contents n (Function.update f i o) ++ ((f n).toList ++ (f i).toList))
              (contents n (Function.update f i o) ++ ((f i).toList ++ (f n).toList)) :=
              List.perm_append_comm.append_left _
          List.Perm _ (contents n f ++ (o.toList ++ (f n).toList)) := by
              rw [← List.append_assoc, ← List.append_assoc]
              exact (ih (by omega)).append_right _
          List.Perm _ (contents n f ++ ((f n).toList ++ o.toList)) :=
              List.perm_append_comm.append_left _

theorem contents_fill (hi : i < n) (hfree : f i = none) :
    (contents n (Function.update f i (some x))).Perm (x :: contents n f) := by
  have h := contents_update f (some x) hi
  rw [hfree, Option.toList_none, List.append_nil, Option.toList_some] at h
  exact h.trans (List.perm_append_singleton x _)

theorem contents_empty (hi : i < n) (hheld : f i = some x) :
    (contents n f).Perm (x :: contents n (Function.update f i none)) := by
  have h := contents_update f none hi
  rw [hheld, Option.toList_none, List.append_nil, Option.toList_some] at h
  exact h.symm.trans (List.perm_append_singleton x _)

theorem contents_refill (hi : i < n) (hheld : f i = some y) :
    (y :: contents n (Function.update f i (some x))).Perm (x :: contents n f) := by
  have h := contents_update f (some x) hi
  rw [hheld, Option.toList_some, Option.toList_some] at h
  exact (List.perm_append_singleton y _).symm.trans (h.trans (List.perm_append_singleton x _))

/-- The slots of a list laid out from slot `0` on hold the list. -/
theorem contents_list (l : List β) : contents l.length (fun k => l[k]?) = l := by
  induction l using List.reverseRecOn with
  | nil => rfl
  | append_singleton l x ih =>
      have hfirst : contents l.length (fun k => (l ++ [x])[k]?) = l := by
        calc contents l.length (fun k => (l ++ [x])[k]?)
            = contents l.length (fun k => l[k]?) :=
              contents_congr fun k hk => List.getElem?_append_left hk
          _ = l := ih
      rw [List.length_append, List.length_singleton, contents_succ, hfirst]
      simp

/-- Counting the slots that hold something. -/
theorem countP_range {q : ℕ → Bool} (h : ∀ i, i < n → q i = (f i).isSome) :
    (List.range n).countP q = (contents n f).length := by
  induction n with
  | zero => rfl
  | succ n ih =>
      have hlast := h n (by omega)
      rw [List.range_succ, List.countP_append, ih fun i hi => h i (by omega), contents_succ,
        List.length_append]
      cases hn : f n <;> simp [hlast, hn]

theorem contents_length_le : (contents n f).length ≤ n := by
  calc (contents n f).length
      ≤ (List.range n).length := List.length_filterMap_le _ _
    _ = n := List.length_range

/-- A slot is free exactly when fewer items are held than there are slots. -/
theorem contents_length_lt : (contents n f).length < n ↔ ∃ i < n, f i = none := by
  induction n with
  | zero => simp
  | succ n ih =>
      rw [contents_succ, List.length_append]
      have hle : (contents n f).length ≤ n := contents_length_le
      cases hn : f n with
      | none =>
          simp only [Option.toList_none, List.length_nil]
          exact iff_of_true (by omega) ⟨n, by omega, hn⟩
      | some y =>
          simp only [Option.toList_some, List.length_singleton, Nat.add_lt_add_iff_right]
          rw [ih]
          constructor
          · rintro ⟨i, hi, hfree⟩
            exact ⟨i, by omega, hfree⟩
          · rintro ⟨i, hi, hfree⟩
            refine ⟨i, ?_, hfree⟩
            have : i ≠ n := by
              rintro rfl
              rw [hn] at hfree
              cases hfree
            omega

/-- If the marks of the items are all different, two slots with equal marks are
one. -/
theorem contents_inj {φ : β → γ} (hnodup : ((contents n f).map φ).Nodup) {j : ℕ}
    (hi : i < n) (hj : j < n) (hx : f i = some x) (hy : f j = some y) (heq : φ x = φ y) :
    i = j := by
  by_contra hij
  have hfill := (contents_empty hi hx).map φ
  rw [hfill.nodup_iff, List.map_cons, List.nodup_cons] at hnodup
  refine hnodup.1 (List.mem_map.mpr ⟨y, ?_, heq.symm⟩)
  exact mem_contents.mpr ⟨j, hj, by rw [Function.update_of_ne (Ne.symm hij), hy]⟩

end Slots
