import Mathlib.Tactic

/-!
# Finite maps as ordered lists of pairs

A finite map from an ordered type of keys is the list of its pairs in strictly
increasing order of the keys. `put` overwrites or adds one pair, `find` looks a
key up, and the pair of least key stands at the head.
-/

namespace OrderedMap

variable {K V : Type*} [LinearOrder K] {l l' : List (K × V)} {k : K} {v w : V}

/-- The keys increase strictly. -/
def Sorted (l : List (K × V)) : Prop :=
  l.Pairwise fun p q => p.1 < q.1

def find (k : K) : List (K × V) → Option V
  | [] => none
  | p :: l => if p.1 = k then some p.2 else find k l

/-- Overwrites the value of `k`, or adds the pair in its place. -/
def put (k : K) (v : V) : List (K × V) → List (K × V)
  | [] => [(k, v)]
  | p :: l =>
      if k < p.1 then (k, v) :: p :: l
      else if k = p.1 then (k, v) :: l
      else p :: put k v l

theorem find_eq_none : find k l = none ↔ ∀ p ∈ l, p.1 ≠ k := by
  induction l with
  | nil => simp [find]
  | cons p l ih =>
      by_cases hp : p.1 = k
      · simp [find, hp]
      · simp [find, hp, ih]

theorem find_mem (h : find k l = some v) : (k, v) ∈ l := by
  induction l with
  | nil => cases h
  | cons p l ih =>
      by_cases hp : p.1 = k
      · simp only [find, if_pos hp, Option.some.injEq] at h
        subst hp h
        exact List.mem_cons_self
      · simp only [find, if_neg hp] at h
        exact List.mem_cons_of_mem _ (ih h)

theorem Sorted.tail {p : K × V} (h : Sorted (p :: l)) : Sorted l :=
  (List.pairwise_cons.mp h).2

theorem Sorted.head_lt {p : K × V} (h : Sorted (p :: l)) : ∀ q ∈ l, p.1 < q.1 :=
  (List.pairwise_cons.mp h).1

/-- A key above all others goes to the end. -/
theorem put_append (h : ∀ p ∈ l, p.1 < k) : put k v l = l ++ [(k, v)] := by
  induction l with
  | nil => rfl
  | cons p l ih =>
      have hp := h p List.mem_cons_self
      rw [put, if_neg hp.not_gt, if_neg hp.ne', ih fun q hq => h q (List.mem_cons_of_mem _ hq)]
      rfl

/-- A key below all others goes to the head. -/
theorem put_cons (h : ∀ p ∈ l, k < p.1) : put k v l = (k, v) :: l := by
  cases l with
  | nil => rfl
  | cons p l => rw [put, if_pos (h p List.mem_cons_self)]

/-- The keys of a sorted list are all different. -/
theorem Sorted.keys_nodup (h : Sorted l) : (l.map Prod.fst).Nodup := by
  induction l with
  | nil => exact List.nodup_nil
  | cons p l ih =>
      rw [List.map_cons, List.nodup_cons]
      refine ⟨?_, ih h.tail⟩
      intro hmem
      obtain ⟨q, hq, heq⟩ := List.mem_map.mp hmem
      exact absurd heq (ne_of_gt (h.head_lt q hq))

theorem mem_put {p : K × V} (h : p ∈ put k v l) : p = (k, v) ∨ p ∈ l := by
  induction l with
  | nil => exact .inl (List.mem_singleton.mp h)
  | cons q l ih =>
      unfold put at h
      split_ifs at h with hlt heq
      · rcases List.mem_cons.mp h with h | h
        · exact .inl h
        · exact .inr h
      · rcases List.mem_cons.mp h with h | h
        · exact .inl h
        · exact .inr (List.mem_cons_of_mem _ h)
      · rcases List.mem_cons.mp h with rfl | h
        · exact .inr List.mem_cons_self
        · rcases ih h with h | h
          · exact .inl h
          · exact .inr (List.mem_cons_of_mem _ h)

theorem mem_put_self : (k, v) ∈ put k v l := by
  induction l with
  | nil => exact List.mem_singleton_self _
  | cons q l ih =>
      unfold put
      split_ifs
      · exact List.mem_cons_self
      · exact List.mem_cons_self
      · exact List.mem_cons_of_mem _ ih

/-- No key is given up. -/
theorem key_put {p : K × V} (h : p ∈ l) : ∃ q ∈ put k v l, q.1 = p.1 := by
  induction l with
  | nil => cases h
  | cons q l ih =>
      unfold put
      split_ifs with hlt heq
      · exact ⟨p, List.mem_cons_of_mem _ h, rfl⟩
      · rcases List.mem_cons.mp h with rfl | h
        · exact ⟨(k, v), List.mem_cons_self, heq⟩
        · exact ⟨p, List.mem_cons_of_mem _ h, rfl⟩
      · rcases List.mem_cons.mp h with rfl | h
        · exact ⟨p, List.mem_cons_self, rfl⟩
        · obtain ⟨r, hr, hkey⟩ := ih h
          exact ⟨r, List.mem_cons_of_mem _ hr, hkey⟩

theorem Sorted.put (h : Sorted l) : Sorted (put k v l) := by
  induction l with
  | nil => exact List.pairwise_singleton _ _
  | cons q l ih =>
      unfold OrderedMap.put
      split_ifs with hlt heq
      · refine List.pairwise_cons.mpr ⟨?_, h⟩
        intro p hp
        rcases List.mem_cons.mp hp with rfl | hp
        · exact hlt
        · exact hlt.trans (h.head_lt p hp)
      · refine List.pairwise_cons.mpr ⟨?_, h.tail⟩
        intro p hp
        rw [heq]
        exact h.head_lt p hp
      · refine List.pairwise_cons.mpr ⟨?_, ih h.tail⟩
        intro p hp
        rcases mem_put hp with rfl | hp
        · exact lt_of_le_of_ne (not_lt.mp hlt) (Ne.symm heq)
        · exact h.head_lt p hp

/-- Adding a key that is absent adds one pair. -/
theorem put_absent (h : find k l = none) : (put k v l).Perm ((k, v) :: l) := by
  induction l with
  | nil => exact List.Perm.refl _
  | cons q l ih =>
      rw [find_eq_none] at h
      unfold put
      split_ifs with hlt heq
      · exact List.Perm.refl _
      · exact absurd heq.symm (h q List.mem_cons_self)
      · have hrest := find_eq_none.mpr fun p hp => h p (List.mem_cons_of_mem _ hp)
        exact ((ih hrest).cons q).trans (List.Perm.swap _ _ _)

/-- Overwriting a key that is present exchanges one pair. -/
theorem put_present (hsort : Sorted l) (h : find k l = some w) :
    ((k, w) :: put k v l).Perm ((k, v) :: l) := by
  induction l with
  | nil => cases h
  | cons q l ih =>
      unfold put
      split_ifs with hlt heq
      · -- a smaller key than the head's is absent
        have hmem := find_mem h
        rcases List.mem_cons.mp hmem with hq | hq
        · rw [← hq] at hlt
          exact absurd hlt (lt_irrefl _)
        · exact absurd (hlt.trans (hsort.head_lt _ hq)) (lt_irrefl _)
      · subst heq
        simp only [find, if_true, Option.some.injEq] at h
        subst h
        exact List.Perm.swap _ _ _
      · have hrest : find k l = some w := by simpa [find, Ne.symm heq] using h
        calc List.Perm ((k, w) :: q :: put k v l) (q :: (k, w) :: put k v l) :=
              List.Perm.swap _ _ _
          List.Perm _ (q :: (k, v) :: l) := (ih hsort.tail hrest).cons q
          List.Perm _ ((k, v) :: q :: l) := List.Perm.swap _ _ _

theorem Sorted.head_le {p : K × V} (h : Sorted l) (hp : l.head? = some p) :
    ∀ q ∈ l, p.1 ≤ q.1 := by
  cases l with
  | nil => cases hp
  | cons r l =>
      cases hp
      intro q hq
      rcases List.mem_cons.mp hq with rfl | hq
      · exact le_refl _
      · exact le_of_lt (h.head_lt q hq)

/-- The pair at the head has the least key. -/
theorem Sorted.head_eq {p : K × V} (h : Sorted l) (hmem : p ∈ l)
    (hle : ∀ q ∈ l, p.1 ≤ q.1) : l.head? = some p := by
  cases l with
  | nil => cases hmem
  | cons q l =>
      rcases List.mem_cons.mp hmem with rfl | hmem
      · rfl
      · exact absurd (h.head_lt p hmem) (not_lt.mpr (hle q List.mem_cons_self))

end OrderedMap
