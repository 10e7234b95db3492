import Mathlib.Tactic

/-!
# Taking the first place that is free

Seekers numbered below `n` go over places `0, 1, …` until they come upon a free
one, while places are taken and left by others. Where the taken places and the
seekers together never outnumber the places, a seeker never gets past the last
place: in front of place `i`, or on a place from `i` on, there are never more
than `cap - i`, since whoever moves on leaves a taken place behind.
-/

namespace FirstFit

variable {n cap t i : ℕ} {place : ℕ → Option ℕ} {taken taken' : Finset ℕ} {o : Option ℕ}

/-- A seeker in front of place `j` counts for the places up to `j`. -/
def weight (i : ℕ) : Option ℕ → ℕ
  | none => 0
  | some j => if i ≤ j then 1 else 0

/-- The seekers in front of a place from `i` on. -/
def seekers (n : ℕ) (place : ℕ → Option ℕ) (i : ℕ) : ℕ :=
  ∑ t ∈ Finset.range n, weight i (place t)

/-- The taken places from `i` on. -/
def takenFrom (taken : Finset ℕ) (i : ℕ) : ℕ :=
  (taken.filter (i ≤ ·)).card

/-- Nobody will get past the last of `cap` places. -/
def Roomy (n cap : ℕ) (place : ℕ → Option ℕ) (taken : Finset ℕ) : Prop :=
  ∀ i, i ≤ cap → seekers n place i + takenFrom taken i + i ≤ cap

/-- Going back to the first place. -/
theorem weight_zero (ho : o ≠ none) : weight i (some 0) ≤ weight i o := by
  cases o with
  | none => exact absurd rfl ho
  | some j =>
      simp only [weight]
      split_ifs <;> omega

theorem weight_anti (o : Option ℕ) : weight (i + 1) o ≤ weight i o := by
  cases o with
  | none => exact le_rfl
  | some j =>
      simp only [weight]
      split_ifs <;> omega

theorem seekers_update (ht : t < n) :
    seekers n (Function.update place t o) i + weight i (place t) =
      seekers n place i + weight i o := by
  have hmem : t ∈ Finset.range n := Finset.mem_range.mpr ht
  have hrest : ∀ u ∈ (Finset.range n).erase t,
      weight i (Function.update place t o u) = weight i (place u) := by
    intro u hu
    rw [Function.update_of_ne (Finset.ne_of_mem_erase hu)]
  rw [seekers, seekers, ← Finset.add_sum_erase _ _ hmem, ← Finset.add_sum_erase _ _ hmem,
    Finset.sum_congr rfl hrest, Function.update_self]
  ring

/-- A seeker in front of place `i` does not count for the places behind it. -/
theorem seekers_succ (ht : t < n) (hplace : place t = some i) :
    seekers n place (i + 1) + 1 ≤ seekers n place i := by
  have hmem : t ∈ Finset.range n := Finset.mem_range.mpr ht
  rw [seekers, seekers, ← Finset.add_sum_erase _ _ hmem, ← Finset.add_sum_erase _ _ hmem]
  have hrest : ∑ u ∈ (Finset.range n).erase t, weight (i + 1) (place u) ≤
      ∑ u ∈ (Finset.range n).erase t, weight i (place u) :=
    Finset.sum_le_sum fun u _ => weight_anti (place u)
  have hhere : weight i (place t) = 1 := by
    rw [hplace, weight, if_pos le_rfl]
  have hnext : weight (i + 1) (place t) = 0 := by
    rw [hplace, weight, if_neg (Nat.not_succ_le_self i)]
  omega

theorem takenFrom_mono (hsub : taken' ⊆ taken) : takenFrom taken' i ≤ takenFrom taken i :=
  Finset.card_le_card (Finset.filter_subset_filter _ hsub)

/-- A taken place does not count for the places behind it. -/
theorem takenFrom_succ (hi : i ∈ taken) : takenFrom taken (i + 1) + 1 ≤ takenFrom taken i := by
  have hmem : i ∈ taken.filter (i ≤ ·) := Finset.mem_filter.mpr ⟨hi, le_rfl⟩
  have hsub : taken.filter (i + 1 ≤ ·) ⊆ (taken.filter (i ≤ ·)).erase i := by
    intro j hj
    obtain ⟨hj, hle⟩ := Finset.mem_filter.mp hj
    exact Finset.mem_erase.mpr ⟨by omega, Finset.mem_filter.mpr ⟨hj, by omega⟩⟩
  have hcard := Finset.card_le_card hsub
  have hpos := Finset.card_pos.mpr ⟨i, hmem⟩
  rw [Finset.card_erase_of_mem hmem] at hcard
  simp only [takenFrom]
  omega

theorem takenFrom_insert {j : ℕ} :
    takenFrom (insert j taken) i ≤ takenFrom taken i + weight i (some j) := by
  rw [takenFrom, takenFrom, Finset.filter_insert, weight]
  split
  · exact Finset.card_insert_le _ _
  · exact le_rfl

namespace Roomy

theorem empty (n cap : ℕ) : Roomy n cap (fun _ => none) ∅ := by
  intro i hi
  have hseekers : seekers n (fun _ => none) i = 0 := Finset.sum_eq_zero fun _ _ => rfl
  have htaken : takenFrom ∅ i = 0 := rfl
  omega

/-- Another seeker finds room. -/
theorem join (h : Roomy n cap place taken) (ht : t < n) (hplace : place t = none)
    (hroom : seekers n place 0 + taken.card < cap) :
    Roomy n cap (Function.update place t (some 0)) taken := by
  intro i hi
  have hupdate : seekers n (Function.update place t (some 0)) i + weight i (place t) =
      seekers n place i + weight i (some 0) := seekers_update ht
  rw [hplace] at hupdate
  have hold := h i hi
  rcases Nat.eq_zero_or_pos i with rfl | hpos
  · have htaken : takenFrom taken 0 = taken.card := by simp [takenFrom]
    simp only [weight, le_refl, if_true] at hupdate
    omega
  · have hweight : weight i (some 0) = 0 := by
      rw [weight, if_neg (by omega)]
    rw [hweight] at hupdate
    simp only [weight] at hupdate
    omega

/-- Seekers give up or go back, and places are left. -/
theorem shrink {p : Option ℕ} (h : Roomy n cap place taken) (ht : t < n)
    (hle : ∀ i, weight i p ≤ weight i (place t)) (hsub : taken' ⊆ taken) :
    Roomy n cap (Function.update place t p) taken' := by
  intro i hi
  have hupdate : seekers n (Function.update place t p) i + weight i (place t) =
      seekers n place i + weight i p := seekers_update ht
  have hmono : takenFrom taken' i ≤ takenFrom taken i := takenFrom_mono hsub
  have hold := h i hi
  have hweight := hle i
  omega

/-- A seeker finds a place taken and moves on. -/
theorem skip (h : Roomy n cap place taken) (ht : t < n) (hplace : place t = some i)
    (hi : i < cap) (htaken : i ∈ taken) :
    i + 1 < cap ∧ Roomy n cap (Function.update place t (some (i + 1))) taken := by
  have hseekers := seekers_succ ht hplace
  have hbehind := takenFrom_succ htaken
  have hhere := h i hi.le
  refine ⟨?_, ?_⟩
  · have hpos : 0 < takenFrom taken i :=
      Finset.card_pos.mpr ⟨i, Finset.mem_filter.mpr ⟨htaken, le_rfl⟩⟩
    omega
  · intro k hk
    have hupdate : seekers n (Function.update place t (some (i + 1))) k + weight k (place t) =
        seekers n place k + weight k (some (i + 1)) := seekers_update ht
    rw [hplace] at hupdate
    by_cases hki : k = i + 1
    · subst hki
      have hold : weight (i + 1) (some i) = 0 := by
        rw [weight, if_neg (Nat.not_succ_le_self i)]
      have hnew : weight (i + 1) (some (i + 1)) = 1 := by
        rw [weight, if_pos le_rfl]
      omega
    · have hsame : weight k (some (i + 1)) = weight k (some i) := by
        simp only [weight]
        split_ifs <;> omega
      have hold := h k hk
      omega

/-- A seeker takes the place it stands in front of. -/
theorem take (h : Roomy n cap place taken) (ht : t < n) (hplace : place t = some i) :
    Roomy n cap (Function.update place t none) (insert i taken) := by
  intro k hk
  have hupdate : seekers n (Function.update place t none) k + weight k (place t) =
      seekers n place k + weight k none := seekers_update ht
  rw [hplace] at hupdate
  have hinsert : takenFrom (insert i taken) k ≤ takenFrom taken k + weight k (some i) :=
    takenFrom_insert
  have hold := h k hk
  have hnone : weight k none = 0 := rfl
  omega

end Roomy

end FirstFit
