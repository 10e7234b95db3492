import Vsched.Foundation.Labelled

/-!
# Calls that come to an end

The steps of a system that agents share carry the agent that makes them. An agent
is in one call at a time, and the history says which call it made last and how
many steps it has made since. If a rank of the agent falls with each of its own
steps, and no step of another agent raises it, a call takes at most as many steps
as its rank at the start, whatever the others do meanwhile.
-/

namespace Labelled

variable {σ α ε γ : Type*} [DecidableEq α]

/-- The newest call of an agent and the number of steps the agent has made since. -/
def ongoing (calls : ε → Option γ) : List (α × ε) → α → Option (γ × ℕ)
  | [], _ => none
  | (b, e) :: h, a =>
      if b = a then
        match calls e with
        | some c => some (c, 0)
        | none => (ongoing calls h a).map fun x => (x.1, x.2 + 1)
      else ongoing calls h a

/-- `rank` bounds the steps an agent still makes in its call. -/
structure Ranks (M : System σ (α × ε)) (G : List (α × ε) → σ → α × ε → Prop)
    (calls : ε → Option γ) (limit : γ → ℕ) (rank : σ → α → ℕ) : Prop where
  call : ∀ h s a e s' c, M.RunOf G h s → M.step s (a, e) s' → calls e = some c →
    rank s' a ≤ limit c
  own : ∀ h s a e s', M.RunOf G h s → M.step s (a, e) s' → calls e = none →
    rank s' a < rank s a
  other : ∀ h s a b e s', M.RunOf G h s → M.step s (b, e) s' → b ≠ a → rank s' a ≤ rank s a

variable {M : System σ (α × ε)} {G : List (α × ε) → σ → α × ε → Prop} {calls : ε → Option γ}
  {limit : γ → ℕ} {rank : σ → α → ℕ} {h : List (α × ε)} {s : σ} {a : α} {c : γ} {n : ℕ}

/-- The steps made and the steps still to come are within the limit of the call. -/
theorem Ranks.bound (hranks : Ranks M G calls limit rank) (hrun : M.RunOf G h s)
    (hon : ongoing calls h a = some (c, n)) : n + rank s a ≤ limit c := by
  induction hrun generalizing n with
  | start _ => cases hon
  | @next h s s' l hprev _ hstep ih =>
      obtain ⟨b, e⟩ := l
      by_cases hb : b = a
      · subst hb
        rw [ongoing, if_pos rfl] at hon
        cases hcalls : calls e with
        | some c' =>
            rw [hcalls] at hon
            cases hon
            rw [Nat.zero_add]
            exact hranks.call _ _ _ _ _ _ hprev hstep hcalls
        | none =>
            rw [hcalls] at hon
            obtain ⟨x, hx, hxn⟩ := Option.map_eq_some_iff.mp hon
            cases hxn
            have hle := ih hx
            have hlt := hranks.own _ _ _ _ _ hprev hstep hcalls
            omega
      · rw [ongoing, if_neg hb] at hon
        exact (Nat.add_le_add_left (hranks.other _ _ _ _ _ _ hprev hstep hb) n).trans (ih hon)

end Labelled
