import Mathlib.Tactic

/-!
# Locks and the agents inside them

A lock is recorded by its holder, and an agent's place in its code says which lock it
is inside. Acquiring a free lock and releasing a lock one is inside keep the two in
agreement, so no two agents are inside the same lock and a lock that is not free has
an agent inside it.
-/

namespace Locks

variable {ι α : Type*}

/-- A lock is held by the agent that is inside it. -/
def Guarded (lock : ι → Option α) (inside : α → Option ι) : Prop :=
  ∀ a i, lock i = some a ↔ inside a = some i

variable {lock : ι → Option α} {inside : α → Option ι} {a b : α} {i : ι}

namespace Guarded

/-- Two agents are not inside one lock. -/
theorem unique (hlock : Guarded lock inside) (ha : inside a = some i) (hb : inside b = some i) :
    a = b := by
  have hheld : lock i = some a := (hlock a i).mpr ha
  rw [(hlock b i).mpr hb] at hheld
  exact (Option.some_inj.mp hheld).symm

variable [DecidableEq ι] [DecidableEq α]

theorem acquire (hlock : Guarded lock inside) (hfree : lock i = none) (ha : inside a = none) :
    Guarded (Function.update lock i (some a)) (Function.update inside a (some i)) := by
  intro b j
  by_cases hb : b = a
  · subst hb
    by_cases hj : j = i
    · simp [hj]
    · have hnot : lock j ≠ some b := by simp [hlock b j, ha]
      simp [hj, Ne.symm hj, hnot]
  · rw [Function.update_of_ne hb]
    by_cases hj : j = i
    · subst hj
      have hnot : inside b ≠ some j := by simp [← hlock b j, hfree]
      simp [hnot, Ne.symm hb]
    · rw [Function.update_of_ne hj, hlock b j]

theorem release (hlock : Guarded lock inside) (ha : inside a = some i) :
    Guarded (Function.update lock i none) (Function.update inside a none) := by
  intro b j
  by_cases hb : b = a
  · subst hb
    by_cases hj : j = i
    · simp [hj]
    · have hnot : lock j ≠ some b := by simp [hlock b j, ha, Ne.symm hj]
      simp [hj, hnot]
  · rw [Function.update_of_ne hb]
    by_cases hj : j = i
    · subst hj
      have hnot : inside b ≠ some j := fun hin => hb (hlock.unique hin ha)
      simp [hnot]
    · rw [Function.update_of_ne hj, hlock b j]

end Guarded

end Locks
