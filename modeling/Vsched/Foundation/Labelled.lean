import Mathlib.Tactic

/-!
# Runs of a labelled transition system

A run is recorded by its history, the list of the labels it has taken with the
newest first. `RunOf M G h s` is a run of `M` with history `h` that ends in `s`
and each of whose steps met the guard `G` in the state it was taken from; the
guard may also read the history up to that step. A property of every state a
run visits is a property of the last state of every run, since each prefix of a
run is a run with the same guard.
-/

namespace Labelled

/-- A transition system whose steps carry a label. -/
structure System (σ ℓ : Type*) where
  /-- The states a run may start in. -/
  start : σ → Prop
  /-- `step s a s'`: the label `a` leads from `s` to `s'`. -/
  step : σ → ℓ → σ → Prop

namespace System

variable {σ ℓ : Type*} {M : System σ ℓ} {G G' : List ℓ → σ → ℓ → Prop}
  {h : List ℓ} {s : σ}

/-- The runs of `M` whose every step met `G`, with the newest label first. -/
inductive RunOf (M : System σ ℓ) (G : List ℓ → σ → ℓ → Prop) : List ℓ → σ → Prop
  | start {s : σ} : M.start s → RunOf M G [] s
  | next {h : List ℓ} {s s' : σ} {a : ℓ} :
      RunOf M G h s → G h s a → M.step s a s' → RunOf M G (a :: h) s'

/-- All runs of `M`. -/
abbrev Run (M : System σ ℓ) : List ℓ → σ → Prop :=
  RunOf M fun _ _ _ => True

namespace RunOf

/-- What holds at the start and is kept by every guarded step holds of every
guarded run. The step may use that it is taken from a guarded run. -/
theorem invariant {I : List ℓ → σ → Prop} (hrun : RunOf M G h s)
    (hstart : ∀ s, M.start s → I [] s)
    (hnext : ∀ h s a s', RunOf M G h s → I h s → G h s a → M.step s a s' →
      I (a :: h) s') : I h s := by
  induction hrun with
  | start hs => exact hstart _ hs
  | next hprev hg hstep ih => exact hnext _ _ _ _ hprev ih hg hstep

/-- A guard that every step taken along a guarded run meets may be added. -/
theorem upgrade (hrun : RunOf M G h s)
    (hguard : ∀ h s a s', RunOf M G h s → RunOf M G' h s → G h s a → M.step s a s' →
      G' h s a) : RunOf M G' h s := by
  induction hrun with
  | start hs => exact .start hs
  | next hprev hg hstep ih => exact .next ih (hguard _ _ _ _ hprev ih hg hstep) hstep

/-- What the guard says of a label holds of every label of the run. -/
theorem all_labels {P : ℓ → Prop} (hrun : RunOf M G h s) (hP : ∀ h s a, G h s a → P a) :
    ∀ a ∈ h, P a := by
  induction hrun with
  | start hs => exact fun a ha => by cases ha
  | next _ hg _ ih =>
      intro a ha
      rcases List.mem_cons.mp ha with rfl | ha
      · exact hP _ _ _ hg
      · exact ih a ha

theorem mono (hrun : RunOf M G h s) (hle : ∀ h s a, G h s a → G' h s a) :
    RunOf M G' h s :=
  hrun.upgrade fun _ _ _ _ _ _ hg _ => hle _ _ _ hg

end RunOf

/-- The system that goes on from `s₀`. -/
def after (M : System σ ℓ) (s₀ : σ) : System σ ℓ :=
  { M with start := fun s => s = s₀ }

namespace RunOf

variable {h₀ : List ℓ} {s₀ : σ}

/-- A run that goes on from the end of another. -/
theorem append (hrun : RunOf M G h₀ s₀)
    (hnext : RunOf (M.after s₀) (fun h s a => G (h ++ h₀) s a) h s) : RunOf M G (h ++ h₀) s := by
  induction hnext with
  | start hs =>
      cases hs
      exact hrun
  | next _ hg hstep ih => exact ih.next hg hstep

/-- A run goes on after each of its steps. -/
theorem split {h₁ h₂ : List ℓ} {a : ℓ} (hrun : RunOf M G (h₂ ++ a :: h₁) s) :
    ∃ s₁ s₂, RunOf M G h₁ s₁ ∧ M.step s₁ a s₂ ∧
      RunOf (M.after s₂) (fun h s b => G (h ++ a :: h₁) s b) h₂ s := by
  induction h₂ generalizing s with
  | nil =>
      cases hrun with
      | next hprev _ hstep => exact ⟨_, _, hprev, hstep, .start rfl⟩
  | cons b h₂ ih =>
      cases hrun with
      | next hprev hg hstep =>
          obtain ⟨s₁, s₂, hfirst, ha, hrest⟩ := ih hprev
          exact ⟨s₁, s₂, hfirst, ha, hrest.next hg hstep⟩

/-- The history at an earlier instant is the history of a run. -/
theorem suffix {g : List ℓ} (hrun : RunOf M G h s) (hg : g <:+ h) :
    ∃ s', RunOf M G g s' := by
  induction hrun with
  | start hs =>
      rw [List.suffix_nil.mp hg]
      exact ⟨_, .start hs⟩
  | next hprev hguard hstep ih =>
      rcases List.suffix_cons_iff.mp hg with rfl | hg
      · exact ⟨_, hprev.next hguard hstep⟩
      · exact ih hg

end RunOf

/-- A run that has come through `h₁`, has taken `a` and then `h₂` and now is in `s`,
every state since the one `a` has led to satisfying `P`. -/
def During (M : System σ ℓ) (P : σ → Prop) (h₁ : List ℓ) (a : ℓ) (h₂ : List ℓ) (s : σ) : Prop :=
  ∃ s₁ s₂, M.Run h₁ s₁ ∧ M.step s₁ a s₂ ∧ (M.after s₂).RunOf (fun _ s _ => P s) h₂ s ∧ P s

namespace During

variable {P : σ → Prop} {h₁ h₂ : List ℓ} {a : ℓ}

theorem run (hduring : M.During P h₁ a h₂ s) : M.Run (h₂ ++ a :: h₁) s := by
  obtain ⟨s₁, s₂, hrun, hstep, hrest, -⟩ := hduring
  have hfirst : M.Run (a :: h₁) s₂ := hrun.next trivial hstep
  exact hfirst.append (hrest.mono fun _ _ _ _ => trivial)

/-- What `a` brings about and the steps keep between states that satisfy `P`. -/
theorem invariant {I : List ℓ → σ → Prop} (hduring : M.During P h₁ a h₂ s)
    (hstart : ∀ s₁ s₂, M.Run h₁ s₁ → M.step s₁ a s₂ → P s₂ → I [] s₂)
    (hnext : ∀ h s b s', M.Run (h ++ a :: h₁) s → P s → P s' → I h s → M.step s b s' →
      I (b :: h) s') : I h₂ s := by
  obtain ⟨s₁, s₂, hrun, hstep, hrest, hend⟩ := hduring
  have hfirst : M.Run (a :: h₁) s₂ := hrun.next trivial hstep
  induction hrest with
  | start hs =>
      cases hs
      exact hstart s₁ _ hrun hstep hend
  | @next h s s' b hprev hp hb ih =>
      have hreach : M.Run (h ++ a :: h₁) s := hfirst.append (hprev.mono fun _ _ _ _ => trivial)
      exact hnext h s b s' hreach hp hend (ih hp) hb

end During

end System

section Since

variable {ℓ : Type*} {start : ℓ → Prop} {P Q : List ℓ → Prop} {h : List ℓ} {a : ℓ}

/-- `P` held of the history at some instant since the newest label that is a
`start`. -/
def Since (start : ℓ → Prop) (P : List ℓ → Prop) : List ℓ → Prop
  | [] => P []
  | a :: h => P (a :: h) ∨ ¬ start a ∧ Since start P h

instance Since.decidable [DecidablePred start] [DecidablePred P] :
    DecidablePred (Since start P)
  | [] => inferInstanceAs (Decidable (P []))
  | a :: h =>
      have : Decidable (Since start P h) := Since.decidable h
      inferInstanceAs (Decidable (P (a :: h) ∨ ¬ start a ∧ Since start P h))

theorem Since.now (hp : P h) : Since start P h := by
  cases h with
  | nil => exact hp
  | cons a h => exact .inl hp

theorem Since.later (hsince : Since start P h) (ha : ¬ start a) : Since start P (a :: h) :=
  .inr ⟨ha, hsince⟩

end Since

section Play

variable {σ ℓ κ : Type*} {M : System σ ℓ} {perform : σ → κ → Option (ℓ × σ)}
  {G : List ℓ → σ → ℓ → Prop} [∀ h s a, Decidable (G h s a)]

/-- Plays a list of choices, each of which `perform` turns into one step or
refuses, as long as the steps meet the guard. -/
def play (perform : σ → κ → Option (ℓ × σ)) (G : List ℓ → σ → ℓ → Prop)
    [∀ h s a, Decidable (G h s a)] : List κ → List ℓ → σ → Option (List ℓ × σ)
  | [], h, s => some (h, s)
  | k :: ks, h, s =>
      match perform s k with
      | none => none
      | some (a, s') => if G h s a then play perform G ks (a :: h) s' else none

/-- What is played from a run is a run. -/
theorem System.RunOf.play {ks : List κ} {h h' : List ℓ} {s s' : σ}
    (hperform : ∀ s k a s', perform s k = some (a, s') → M.step s a s')
    (hrun : RunOf M G h s) (hplay : Labelled.play perform G ks h s = some (h', s')) :
    RunOf M G h' s' := by
  induction ks generalizing h s with
  | nil =>
      obtain ⟨rfl, rfl⟩ : h = h' ∧ s = s' := by simpa [Labelled.play] using hplay
      exact hrun
  | cons k ks ih =>
      simp only [Labelled.play] at hplay
      cases hk : perform s k with
      | none => simp [hk] at hplay
      | some r =>
          obtain ⟨a, t⟩ := r
          simp only [hk] at hplay
          by_cases hg : G h s a
          · rw [if_pos hg] at hplay
            exact ih (hrun.next hg (hperform s k a t hk)) hplay
          · rw [if_neg hg] at hplay
            cases hplay

/-- Plays a list of choices through states that satisfy `P`. -/
def playWhile (perform : σ → κ → Option (ℓ × σ)) (P : σ → Prop) [DecidablePred P] (ks : List κ)
    (s : σ) : Option (List ℓ × σ) :=
  play perform (fun _ s _ => P s) ks [] s

/-- What is played from a state in which a run has arrived. -/
theorem System.During.play {P : σ → Prop} [DecidablePred P] {r r' : List ℓ × σ} {x : ℓ × σ} {k : κ}
    {ks : List κ} {a : ℓ} (hperform : ∀ s k a s', perform s k = some (a, s') → M.step s a s')
    (hrun : M.Run r.1 r.2) (hstep : perform r.2 k = some x) (ha : x.1 = a)
    (hplay : playWhile perform P ks x.2 = some r') (hend : P r'.2) :
    M.During P r.1 a r'.1 r'.2 := by
  subst ha
  refine ⟨r.2, x.2, hrun, hperform _ _ _ _ hstep, ?_, hend⟩
  have hstart : (M.after x.2).RunOf (fun _ s _ => P s) [] x.2 := .start rfl
  exact hstart.play hperform hplay

end Play

end Labelled
