import Vsched.Sched.Cfs

/-!
# What setting a priority costs

`set_priority` folds the vruntime of a task into its base and forgets the ticks counted.
The vruntime does not change, but the part of a unit that the division has cut off is
lost. Setting the priority a task has is without effect exactly as long as the parts
that are lost do not add up to a unit.
-/

namespace Sched

namespace CFSTask

/-- The accounts of a task that is not broken: no ticks are missing and the nice value
has a weight. -/
structure Valid (t : CFSTask) : Prop where
  delta : 0 ≤ t.delta
  nice : -20 ≤ t.nice ∧ t.nice ≤ 19

theorem getWeight_bounds {t : CFSTask} (h : t.Valid) : 15 ≤ t.getWeight ∧ t.getWeight ≤ 88761 := by
  obtain ⟨hlow, hhigh⟩ := h.nice
  unfold getWeight
  split_ifs with hnonneg
  · obtain ⟨n, hn⟩ : ∃ n : ℕ, n < 20 ∧ t.nice.toNat = n := ⟨t.nice.toNat, by omega, rfl⟩
    rw [hn.2]
    have hall : ∀ m < 20, 15 ≤ nice2WeightPos.getD m 0 ∧ nice2WeightPos.getD m 0 ≤ 88761 :=
      by decide
    exact hall n hn.1
  · obtain ⟨n, hn⟩ : ∃ n : ℕ, n < 21 ∧ (-t.nice).toNat = n := ⟨(-t.nice).toNat, by omega, rfl⟩
    rw [hn.2]
    have hall : ∀ m < 21, 15 ≤ nice2WeightNeg.getD m 0 ∧ nice2WeightNeg.getD m 0 ≤ 88761 :=
      by decide
    exact hall n hn.1

theorem getWeight_zero {t : CFSTask} (h : t.nice = 0) : t.getWeight = 1024 := by
  simp [getWeight, h, nice2WeightPos]

/-- The vruntime without overflow. -/
def charge (t : CFSTask) : ℤ := t.initVruntime + t.delta * 1024 / t.getWeight

theorem wrap_eq {x : ℤ} (hlow : -2 ^ 63 ≤ x) (hhigh : x < 2 ^ 63) : wrap x = x := by
  unfold wrap
  rw [Int.bmod_eq_of_le] <;> omega

/-- Nothing that the vruntime is computed from overflows. -/
structure Fits (t : CFSTask) : Prop where
  low : -2 ^ 63 ≤ t.initVruntime
  delta : t.delta < 2 ^ 63
  ticks : t.nice = 0 ∨ t.delta * 1024 < 2 ^ 63
  high : t.charge < 2 ^ 63

theorem Valid.new : CFSTask.new.Valid := ⟨le_refl _, by decide⟩

theorem Fits.new : CFSTask.new.Fits := ⟨by decide, by decide, .inl rfl, by decide⟩

theorem Valid.setId {t : CFSTask} (h : t.Valid) (id : ℤ) : (t.setId id).Valid :=
  ⟨h.delta, h.nice⟩

theorem Fits.setId {t : CFSTask} (h : t.Fits) (id : ℤ) : (t.setId id).Fits :=
  ⟨h.low, h.delta, h.ticks, h.high⟩

theorem getVruntime_eq {t : CFSTask} (h : t.Valid) (hfits : t.Fits) : t.getVruntime = t.charge := by
  have hdelta := h.delta
  have hweight := getWeight_bounds h
  have hpart : 0 ≤ t.delta * 1024 / t.getWeight :=
    Int.ediv_nonneg (by omega) (by omega)
  have hlow := hfits.low
  have hhigh := hfits.high
  unfold charge at hhigh
  unfold getVruntime charge
  split_ifs with hnice
  · rw [getWeight_zero hnice, Int.mul_ediv_cancel _ (by norm_num)] at hhigh ⊢
    exact wrap_eq (by omega) hhigh
  · have hticks := hfits.ticks.resolve_left hnice
    rw [wrap_eq (by omega) hticks, Int.tdiv_eq_ediv_of_nonneg (by omega)]
    exact wrap_eq (by omega) hhigh

/-- The task with `n` more ticks counted. -/
def later (t : CFSTask) (n : ℕ) : CFSTask := { t with delta := t.delta + n }

@[simp] theorem later_zero (t : CFSTask) : t.later 0 = t := by
  simp [later]

theorem Valid.later {t : CFSTask} (h : t.Valid) (n : ℕ) : (t.later n).Valid where
  delta := by
    have hdelta := h.delta
    simp only [CFSTask.later]
    omega
  nice := h.nice

/-- Ticks only add to the vruntime. -/
theorem charge_later {t : CFSTask} (h : t.Valid) {m n : ℕ} (hle : m ≤ n) :
    (t.later m).charge ≤ (t.later n).charge := by
  have hweight := getWeight_bounds h
  have hticks : (t.delta + m) * 1024 ≤ (t.delta + n) * 1024 := by omega
  have hdiv := Int.ediv_le_ediv (show 0 < t.getWeight by omega) hticks
  exact Int.add_le_add_left hdiv t.initVruntime

theorem Fits.of_later {t : CFSTask} (h : t.Valid) {m n : ℕ} (hle : m ≤ n)
    (hfits : (t.later n).Fits) : (t.later m).Fits where
  low := hfits.low
  delta := by
    have hdelta := hfits.delta
    simp only [later] at hdelta ⊢
    omega
  ticks := by
    rcases hfits.ticks with hnice | hticks
    · exact .inl hnice
    · refine .inr ?_
      simp only [later] at hticks ⊢
      omega
  high := (charge_later h hle).trans_lt hfits.high

theorem taskTick_eq {t : CFSTask} (h : t.Valid) (hfits : (t.later 1).Fits) :
    t.taskTick = t.later 1 := by
  have hdelta := hfits.delta
  have hnonneg := h.delta
  simp only [later, Nat.cast_one] at hdelta
  unfold taskTick later
  rw [wrap_eq (by omega) hdelta]
  rfl

/-- A tick, or a call that sets the priority the task has. -/
inductive Event
  | tick
  | renice
  deriving DecidableEq, Repr

def Event.apply (t : CFSTask) : Event → CFSTask
  | .tick => t.taskTick
  | .renice => t.setPriority t.nice

/-- The task after a sequence of calls. -/
def account (t : CFSTask) (es : List Event) : CFSTask := es.foldl Event.apply t

/-- What is left of the ticks, in parts of a unit, where each division by the weight
`w` cuts them off: at every priority set and at the end. `d` ticks are counted at the
start. -/
def cutOff (w d : ℤ) : List Event → ℤ
  | [] => d * 1024 % w
  | .tick :: es => cutOff w (d + 1) es
  | .renice :: es => d * 1024 % w + cutOff w 0 es

/-- The parts of a unit cut off make up no unit. -/
def Whole (t : CFSTask) (es : List Event) : Prop :=
  cutOff t.getWeight t.delta es < t.getWeight

instance (t : CFSTask) (es : List Event) : Decidable (t.Whole es) :=
  inferInstanceAs (Decidable (_ < _))

/-- The same ticks have been counted for `t` and `u`, and `t` has lost `c` parts of a
unit. -/
structure Behind (c : ℤ) (t u : CFSTask) : Prop where
  nice : t.nice = u.nice
  delta : 0 ≤ t.delta
  lost : 0 ≤ c
  base : u.initVruntime ≤ t.initVruntime
  sum : (t.initVruntime - u.initVruntime) * u.getWeight + c + t.delta * 1024 = u.delta * 1024

namespace Behind

variable {c : ℤ} {t u : CFSTask}

theorem refl (h : t.Valid) : Behind 0 t t where
  nice := rfl
  delta := h.delta
  lost := le_refl _
  base := le_refl _
  sum := by ring

theorem getWeight (h : Behind c t u) : t.getWeight = u.getWeight := by
  simp only [CFSTask.getWeight, h.nice]

theorem valid (h : Behind c t u) (hu : u.Valid) : t.Valid :=
  ⟨h.delta, by rw [h.nice]; exact hu.nice⟩

/-- The difference of the two vruntimes is the number of units lost. -/
theorem charge (h : Behind c t u) (hu : u.Valid) :
    u.charge = t.charge + (c + t.delta * 1024 % u.getWeight) / u.getWeight := by
  have hw := getWeight_bounds hu
  have hsplit : u.delta * 1024 = c + t.delta * 1024 % u.getWeight +
      (t.initVruntime - u.initVruntime + t.delta * 1024 / u.getWeight) * u.getWeight := by
    have hdiv := Int.mul_ediv_add_emod (t.delta * 1024) u.getWeight
    have hsum := h.sum
    linarith [mul_comm u.getWeight (t.delta * 1024 / u.getWeight),
      add_mul (t.initVruntime - u.initVruntime) (t.delta * 1024 / u.getWeight) u.getWeight]
  unfold CFSTask.charge
  rw [h.getWeight, hsplit, Int.add_mul_ediv_right _ _ (by omega)]
  ring

theorem delta_le (h : Behind c t u) (hu : u.Valid) : t.delta ≤ u.delta := by
  have hw := getWeight_bounds hu
  have hbase : 0 ≤ (t.initVruntime - u.initVruntime) * u.getWeight :=
    mul_nonneg (by linarith [h.base]) (by omega)
  have hsum := h.sum
  have hlost := h.lost
  omega

theorem charge_le (h : Behind c t u) (hu : u.Valid) : t.charge ≤ u.charge := by
  have hw := getWeight_bounds hu
  have hlost := h.lost
  have hmod := Int.emod_nonneg (t.delta * 1024) (show u.getWeight ≠ 0 by omega)
  rw [h.charge hu]
  have := Int.ediv_nonneg (show 0 ≤ c + t.delta * 1024 % u.getWeight by omega)
    (show 0 ≤ u.getWeight by omega)
  omega

theorem fits (h : Behind c t u) (hu : u.Valid) (hfits : u.Fits) : t.Fits := by
  have hdelta := h.delta_le hu
  refine ⟨hfits.low.trans h.base, hdelta.trans_lt hfits.delta, ?_,
    (h.charge_le hu).trans_lt hfits.high⟩
  rcases hfits.ticks with hnice | hticks
  · exact .inl (h.nice.trans hnice)
  · exact .inr (by omega)

/-- The vruntimes are equal exactly if no unit is lost. -/
theorem getVruntime_eq_iff (h : Behind c t u) (hu : u.Valid) (hfits : u.Fits) :
    t.getVruntime = u.getVruntime ↔ c + t.delta * 1024 % u.getWeight < u.getWeight := by
  have hw := getWeight_bounds hu
  have hlost := h.lost
  have hmod := Int.emod_nonneg (t.delta * 1024) (show u.getWeight ≠ 0 by omega)
  rw [getVruntime_eq (h.valid hu) (h.fits hu hfits), getVruntime_eq hu hfits, h.charge hu,
    left_eq_add]
  constructor
  · intro hzero
    by_contra hge
    have := (Int.le_ediv_iff_mul_le (show 0 < u.getWeight by omega)).mpr
      (show 1 * u.getWeight ≤ c + t.delta * 1024 % u.getWeight by omega)
    omega
  · exact Int.ediv_eq_zero_of_lt (by omega)

theorem later (h : Behind c t u) (n : ℕ) : Behind c (t.later n) (u.later n) where
  nice := h.nice
  delta := by
    have hdelta := h.delta
    simp only [CFSTask.later]
    omega
  lost := h.lost
  base := h.base
  sum := by
    have hsum := h.sum
    change (t.initVruntime - u.initVruntime) * u.getWeight + c + (t.delta + n) * 1024 =
      (u.delta + n) * 1024
    linarith

/-- Setting the priority of `t` loses what its ticks do not fill a unit with. -/
theorem renice (h : Behind c t u) (hu : u.Valid) (hfits : u.Fits) :
    Behind (c + t.delta * 1024 % u.getWeight) (t.setPriority t.nice) u := by
  have hw := getWeight_bounds hu
  have hvr := getVruntime_eq (h.valid hu) (h.fits hu hfits)
  have hdelta := h.delta
  have hunits : 0 ≤ t.delta * 1024 / u.getWeight := Int.ediv_nonneg (by omega) (by omega)
  have hdiv := Int.mul_ediv_add_emod (t.delta * 1024) u.getWeight
  have hmod := Int.emod_nonneg (t.delta * 1024) (show u.getWeight ≠ 0 by omega)
  have hlost := h.lost
  have hbase := h.base
  have hsum := h.sum
  rw [CFSTask.charge, h.getWeight] at hvr
  unfold setPriority
  refine ⟨h.nice, le_refl _, by omega, by dsimp only; omega, ?_⟩
  dsimp only
  rw [hvr]
  linarith [mul_comm u.getWeight (t.delta * 1024 / u.getWeight),
    add_mul (t.initVruntime - u.initVruntime) (t.delta * 1024 / u.getWeight) u.getWeight]

/-- The two accounts go on with the same ticks; `t` has its priority set between
them. -/
theorem account (h : Behind c t u) (hu : u.Valid) (es : List Event)
    (hfits : (u.later (es.count .tick)).Fits) :
    (t.account es).getVruntime = (u.account (es.filter (· = .tick))).getVruntime ↔
      c + cutOff u.getWeight t.delta es < u.getWeight := by
  induction es generalizing t u c with
  | nil =>
      rw [List.count_nil, later_zero] at hfits
      exact h.getVruntime_eq_iff hu hfits
  | cons e es ih =>
      have hfits₀ : u.Fits := by
        rw [← later_zero u]
        exact hfits.of_later hu (Nat.zero_le _)
      cases e with
      | tick =>
          rw [List.count_cons_self] at hfits
          have hfits₁ : (u.later 1).Fits := hfits.of_later hu (by omega)
          have htick := taskTick_eq (h.valid hu) ((h.later 1).fits (hu.later 1) hfits₁)
          have hrest : ((u.later 1).later (es.count .tick)).Fits := by
            have heq : (u.later 1).later (es.count .tick) =
                u.later (es.count .tick + 1) := by
              simp only [CFSTask.later, Nat.cast_add, Nat.cast_one]
              congr 1
              ring
            rw [heq]
            exact hfits
          have hstep := ih (h.later 1) (hu.later 1) hrest
          rw [← htick, ← taskTick_eq hu hfits₁] at hstep
          have hdelta : t.taskTick.delta = t.delta + 1 := by rw [htick]; rfl
          rw [hdelta] at hstep
          exact hstep
      | renice =>
          rw [List.count_cons_of_ne (by decide)] at hfits
          have hstep := ih (h.renice hu hfits₀) hu hfits
          rw [cutOff, ← add_assoc]
          exact hstep

end Behind

/-- Setting the priority that a task has, anywhere between its ticks, leaves its
vruntime at every point as it is without these calls exactly if the parts of a unit cut
off up to that point make up no unit. -/
theorem renice_free (t : CFSTask) (h : t.Valid) (es : List Event)
    (hfits : (t.later (es.count .tick)).Fits) :
    (∀ p, p <+: es → (t.account p).getVruntime =
      (t.account (p.filter (· = .tick))).getVruntime) ↔ ∀ p, p <+: es → t.Whole p := by
  have hpoint : ∀ p, p <+: es → ((t.account p).getVruntime =
      (t.account (p.filter (· = .tick))).getVruntime ↔ t.Whole p) := by
    intro p hp
    have hle : p.count .tick ≤ es.count .tick := hp.sublist.count_le _
    have hiff := (Behind.refl h).account h p (hfits.of_later h hle)
    rwa [zero_add] at hiff
  exact forall₂_congr hpoint

/-- At nice 3, one tick after a call and one before it: each division cuts off 498 of
the 526 parts of a unit. -/
theorem renice_free_three : ¬ ∀ p, p <+: [Event.tick, .renice, .tick] →
    ((new.setPriority 3).account p).getVruntime =
      ((new.setPriority 3).account (p.filter (· = .tick))).getVruntime := by
  have hvalid : (new.setPriority 3).Valid := ⟨by decide, by decide⟩
  have hfits : ((new.setPriority 3).later 2).Fits :=
    ⟨by decide, by decide, by decide, by decide⟩
  rw [renice_free _ hvalid [.tick, .renice, .tick] hfits]
  intro h
  exact absurd (h _ (List.prefix_refl _)) (by decide)

/-- Two ticks are worth three units at nice 3, but two if the priority is set between
them. -/
theorem renice_slows : ∃ (t : CFSTask) (es : List Event), t.Valid ∧
    (t.later (es.count .tick)).Fits ∧ (t.account es).getVruntime = 2 ∧
    (t.account (es.filter (· = .tick))).getVruntime = 3 :=
  ⟨new.setPriority 3, [.tick, .renice, .tick], ⟨by decide, by decide⟩,
    ⟨by decide, by decide, by decide, by decide⟩, by decide, by decide⟩

end CFSTask

end Sched
