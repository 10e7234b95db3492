import Vsched.Handoff.Model

/-!
# A task is in at most one place

Every move takes one task from the place it is at to another one, or to none.
`Placed.move` is the one argument for all of them: the places of `k'` are those
of `k` except for one task, which has left the place it was at.
-/

namespace Handoff

variable {κ τ : Type*} {isIdle : τ → Bool} {P : τ → Prop} {k k' : Core κ τ} {c : κ}

/-- Two states that agree on a CPU have the same tasks at its places. -/
theorem at_congr {t : τ} {p : Place κ} {j : Core κ τ} (hrole : j.role p.cpu = k.role p.cpu)
    (hcurrent : j.current p.cpu = k.current p.cpu)
    (hready : j.ready p.cpu = k.ready p.cpu) : At j t p ↔ At k t p := by
  cases p <;> simp only [Place.cpu] at hrole hcurrent hready <;>
    simp only [At, hrole, hcurrent, hready]

section Here

variable {t : τ} {p : Place κ} (hp : At k t p) (hpc : p.cpu = c)
include hp hpc

/-- The places of a CPU that executes for its current task. -/
theorem at_work {b : Bool} {w : Wake τ} (hrole : k.role c = .work b w) :
    (p = .seat c ∧ b = true ∧ t = k.current c) ∨
      (p = .waking c ∧ (Role.work b w).waking = some t) ∨
      (p = .ready c ∧ t ∈ k.ready c) := by
  subst hpc
  cases p with
  | seat d =>
      obtain ⟨⟨v, hv⟩, rfl⟩ := hp
      rw [Place.cpu] at hrole
      rw [hrole] at hv
      cases hv
      exact .inl ⟨rfl, rfl, rfl⟩
  | waking d =>
      rw [Place.cpu] at hrole
      rw [At, hrole] at hp
      exact .inr (.inl ⟨rfl, hp⟩)
  | ready d => exact .inr (.inr ⟨rfl, hp⟩)
  | _ => simp_all [At, Place.cpu]

theorem at_yielding (hrole : k.role c = .yielding) :
    (p = .yielding c ∧ t = k.current c) ∨ (p = .ready c ∧ t ∈ k.ready c) := by
  subst hpc
  cases p <;> simp_all [At, Place.cpu, Role.waking]

theorem at_chosen {n : τ} (hrole : k.role c = .chosen n) :
    (p = .chosen c ∧ t = n) ∨ (p = .ready c ∧ t ∈ k.ready c) := by
  subst hpc
  cases p <;> simp_all [At, Place.cpu, Role.waking]

theorem at_started {n : τ} (hrole : k.role c = .starting n ∨ k.role c = .claimed n) :
    (p = .started c ∧ t = n) ∨ (p = .ready c ∧ t ∈ k.ready c) := by
  subst hpc
  cases p <;> rcases hrole with hrole | hrole <;> simp_all [At, Place.cpu, Role.waking]

end Here

variable [DecidableEq τ]

/-- A task at a place of `c` is at no place of another CPU. -/
theorem Placed.here {t : τ} {p : Place κ} (hk : Placed isIdle P k) (hp : At k t p)
    (hpc : p.cpu = c) : P t → ∀ q, At k t q → q.cpu = c := by
  intro ht q hq
  rw [hk.unique t q p ht hq hp, hpc]

/-- A task that is at another place is another task. -/
theorem Placed.other {a t : τ} {p q : Place κ} (hk : Placed isIdle P k) (ha : At k a p)
    (ht : At k t q) (hne : q ≠ p) : P t → t ≠ a := by
  rintro hPt rfl
  exact hne (hk.unique t q p hPt ht ha)

/-- The queued tasks stay when a task leaves another place. -/
theorem Placed.queued {a t : τ} {p : Place κ} (hk : Placed isIdle P k) (ha : At k a p)
    (ht : t ∈ k.ready c) (hne : .ready c ≠ p) : (P t → t ≠ a) ∧ At k t (.ready c) :=
  ⟨hk.other (q := .ready c) ha ht hne, ht⟩

theorem Placed.not_idle {t : τ} (hk : Placed isIdle P k) (ht : isIdle t = false) :
    ∀ d, k.role d ≠ .off → k.idle d ≠ t := by
  rintro d hd rfl
  rw [(hk.idleMade d hd).2] at ht
  cases ht

theorem Placed.not_blocked {t : τ} {p : Place κ} (hk : Placed isIdle P k) (ht : P t)
    (hp : At k t p) : k.state t ≠ .blocked := by
  intro hblocked
  have hfits := hk.fits t p ht hp
  rw [hblocked] at hfits
  cases p <;> simp [Place.Allows] at hfits

/-- The task `a` leaves its place and comes to `n`, if to any. -/
theorem Placed.move {a : τ} {n : Option (Place κ)} (hk : Placed isIdle P k)
    (hsub : ∀ t p, At k' t p → (t = a ∧ n = some p) ∨ ((P t → t ≠ a) ∧ At k t p))
    (hstate : ∀ t, t ≠ a → k'.state t = k.state t)
    (hcreated : ∀ t, k.created t = true → k'.created t = true)
    (hidle : k'.idle = k.idle) (hoff : ∀ c, k'.role c = .off ↔ k.role c = .off)
    (hfresh : P a → k'.state a = .blocked → k'.created a = true)
    (hnew : ∀ p, n = some p → (P a → k'.created a = true ∧ p.Allows (k'.state a)) ∧
      ∀ c, k.role c ≠ .off → k.idle c = a → p = .seat c ∨ p = .chosen c ∨ p = .started c)
    (hrest : ∀ c, k.role c ≠ .off → k.idle c = a →
      k'.state a = .running ∨ k'.state a = .ready)
    (honce : ∀ t c, P t → (k'.ready c).count t ≤ 1) : Placed isIdle P k' where
  unique := by
    intro t p q ht hp hq
    rcases hsub t p hp with ⟨rfl, hp⟩ | ⟨hne, hp⟩ <;>
      rcases hsub t q hq with ⟨hta, hq⟩ | ⟨hne', hq⟩
    · exact Option.some.inj (hp.symm.trans hq)
    · exact absurd rfl (hne' ht)
    · exact absurd hta (hne ht)
    · exact hk.unique t p q ht hp hq
  once := honce
  fits := by
    intro t p ht hp
    rcases hsub t p hp with ⟨rfl, hp⟩ | ⟨hne, hp⟩
    · exact ((hnew p hp).1 ht).2
    · rw [hstate t (hne ht)]
      exact hk.fits t p ht hp
  idle := by
    intro c p hc hp
    rw [Ne, hoff] at hc
    rw [hidle] at hp
    rcases hsub _ p hp with ⟨ha, hp⟩ | ⟨-, hp⟩
    · exact (hnew p hp).2 c hc ha
    · exact hk.idle c p hc hp
  idleState := by
    intro c hc
    rw [Ne, hoff] at hc
    rw [hidle]
    by_cases ha : k.idle c = a
    · rw [ha]
      exact hrest c hc ha
    · rw [hstate _ ha]
      exact hk.idleState c hc
  made := by
    intro t p ht hp
    rcases hsub t p hp with ⟨rfl, hp⟩ | ⟨-, hp⟩
    · exact ((hnew p hp).1 ht).1
    · exact hcreated t (hk.made t p ht hp)
  fresh := by
    intro t ht hblocked
    by_cases hta : t = a
    · subst hta
      exact hfresh ht hblocked
    · rw [hstate t hta] at hblocked
      exact hcreated t (hk.fresh t ht hblocked)
  idleMade := by
    intro c hc
    rw [Ne, hoff] at hc
    rw [hidle]
    exact ⟨hcreated _ (hk.idleMade c hc).1, (hk.idleMade c hc).2⟩
  idleOwn := by
    intro c d hc hd
    rw [Ne, hoff] at hc hd
    rw [hidle]
    exact hk.idleOwn c d hc hd

/-- Nothing is at another place than before. -/
theorem Placed.same (hk : Placed isIdle P k) (hsub : ∀ t p, At k' t p → At k t p)
    (hstate : k'.state = k.state) (hcreated : k'.created = k.created)
    (hidle : k'.idle = k.idle) (hoff : ∀ c, k'.role c = .off ↔ k.role c = .off)
    (hready : k'.ready = k.ready) : Placed isIdle P k' where
  unique := fun t p q ht hp hq => hk.unique t p q ht (hsub t p hp) (hsub t q hq)
  once := by
    rw [hready]
    exact hk.once
  fits := by
    intro t p ht hp
    rw [hstate]
    exact hk.fits t p ht (hsub t p hp)
  idle := by
    intro c p hc hp
    rw [Ne, hoff] at hc
    rw [hidle] at hp
    exact hk.idle c p hc (hsub _ p hp)
  idleState := by
    intro c hc
    rw [Ne, hoff] at hc
    rw [hidle, hstate]
    exact hk.idleState c hc
  made := by
    intro t p ht hp
    rw [hcreated]
    exact hk.made t p ht (hsub t p hp)
  fresh := by
    rw [hstate, hcreated]
    exact hk.fresh
  idleMade := by
    intro c hc
    rw [Ne, hoff] at hc
    rw [hidle, hcreated]
    exact hk.idleMade c hc
  idleOwn := by
    intro c d hc hd
    rw [Ne, hoff] at hc hd
    rw [hidle]
    exact hk.idleOwn c d hc hd

variable [DecidableEq κ]

/-- The moves of CPU `c` that take a task `a` from a place on `c` to another one. -/
theorem Placed.moveAt {a : τ} {n : Option (Place κ)} (hk : Placed isIdle P k)
    (hhere : P a → ∀ p, At k a p → p.cpu = c)
    (hframe : ∀ d, d ≠ c → k'.role d = k.role d ∧ k'.current d = k.current d ∧
      k'.ready d = k.ready d)
    (hlocal : ∀ t p, p.cpu = c → At k' t p →
      (t = a ∧ n = some p) ∨ ((P t → t ≠ a) ∧ At k t p))
    (hstate : ∀ t, t ≠ a → k'.state t = k.state t)
    (hcreated : k'.created = k.created) (hidle : k'.idle = k.idle)
    (hoff : k'.role c ≠ .off ∧ k.role c ≠ .off)
    (hfresh : P a → k'.state a = .blocked → k.created a = true)
    (hnew : ∀ p, n = some p → (P a → k.created a = true ∧ p.Allows (k'.state a)) ∧
      ∀ c, k.role c ≠ .off → k.idle c = a → p = .seat c ∨ p = .chosen c ∨ p = .started c)
    (hrest : ∀ c, k.role c ≠ .off → k.idle c = a →
      k'.state a = .running ∨ k'.state a = .ready)
    (honce : ∀ t, P t → (k'.ready c).count t ≤ 1) : Placed isIdle P k' := by
  refine hk.move (a := a) (n := n) ?_ hstate (fun t ht => by rwa [hcreated]) hidle ?_
    (by rwa [hcreated]) (fun p hp => by rw [hcreated]; exact hnew p hp) hrest ?_
  · intro t p hp
    by_cases hpc : p.cpu = c
    · exact hlocal t p hpc hp
    · obtain ⟨hrole, hcurrent, hready⟩ := hframe _ hpc
      rw [at_congr hrole hcurrent hready] at hp
      refine .inr ⟨?_, hp⟩
      rintro ht rfl
      exact hpc (hhere ht p hp)
  · intro d
    by_cases hd : d = c
    · subst hd
      exact iff_of_false hoff.1 hoff.2
    · rw [(hframe d hd).1]
  · intro t d ht
    by_cases hd : d = c
    · subst hd
      exact honce t ht
    · rw [(hframe d hd).2.2]
      exact hk.once t d ht

/-- The current task of a CPU gives up its seat and comes to no place of another CPU. -/
theorem Placed.unseat {n : Option (Place κ)} {st : TaskState} {r : Role τ}
    (hk : Placed isIdle P k) (hrole : k.role c = .work true .none)
    (hr : r = .work false .none ∧ n = none ∨
      r = .yielding ∧ n = some (.yielding c) ∧ st = .ready ∧ isIdle (k.current c) = false)
    (hst : isIdle (k.current c) = true → st = .running ∨ st = .ready) :
    Placed isIdle P ((k.setState (k.current c) st).setRole c r) := by
  have hseat : At k (k.current c) (.seat c) := ⟨⟨_, hrole⟩, rfl⟩
  refine hk.moveAt (c := c) (a := k.current c) (n := n) (hk.here hseat rfl)
    ?_ ?_ ?_ rfl rfl ?_ (fun ha _ => hk.made _ _ ha hseat) ?_ ?_ ?_
  · intro d hd
    simp [hd]
  · intro t p hpc hp
    rcases hr with ⟨rfl, rfl⟩ | ⟨rfl, rfl, -, -⟩
    · have hrole' : ((k.setState (k.current c) st).setRole c (.work false .none)).role c =
          .work false .none := by simp
      rcases at_work hp hpc hrole' with ⟨-, hfalse, -⟩ | ⟨-, hw⟩ | ⟨rfl, ht⟩
      · cases hfalse
      · cases hw
      · exact .inr (hk.queued hseat ht (by simp))
    · have hrole' : ((k.setState (k.current c) st).setRole c .yielding).role c =
          .yielding := by simp
      rcases at_yielding hp hpc hrole' with ⟨rfl, rfl⟩ | ⟨rfl, ht⟩
      · exact .inl ⟨rfl, rfl⟩
      · exact .inr (hk.queued hseat ht (by simp))
  · intro t ht
    simp [ht]
  · rcases hr with ⟨rfl, -⟩ | ⟨rfl, -⟩ <;> simp [hrole]
  · rintro p rfl
    rcases hr with ⟨-, hn⟩ | ⟨-, hn, rfl, hi⟩
    · cases hn
    · cases hn
      refine ⟨fun ha => ⟨hk.made _ _ ha hseat, by simp [Place.Allows]⟩, ?_⟩
      intro d hd hcur
      exact absurd hcur (hk.not_idle hi d hd)
  · intro d hd hcur
    simpa using hst (hcur ▸ (hk.idleMade d hd).2)
  · intro t ht
    exact hk.once t c ht

theorem Placed.yieldFail (hk : Placed isIdle P k) (hidle : ∀ t, isIdle t = true → P t)
    (hrole : k.role c = .work true .none) :
    Placed isIdle P (k.setRole c (.work false .none)) := by
  have hsame : k.setState (k.current c) (k.state (k.current c)) = k := by
    simp [Core.setState]
  have hseat : At k (k.current c) (.seat c) := ⟨⟨_, hrole⟩, rfl⟩
  have h := hk.unseat (n := none) hrole (.inl ⟨rfl, rfl⟩)
    (fun hi => .inl (hk.fits _ _ (hidle _ hi) hseat))
  rwa [hsame] at h

theorem count_insert {a t : τ} {l l' : List τ} (hnot : t = a → t ∉ l ++ l')
    (hcount : (l ++ l').count t ≤ 1) : (l ++ a :: l').count t ≤ 1 := by
  by_cases hta : t = a
  · subst hta
    have hzero := List.count_eq_zero.mpr (hnot rfl)
    rw [List.count_append] at hzero ⊢
    rw [List.count_cons_self]
    omega
  · rw [List.count_append, List.count_cons_of_ne (Ne.symm hta), ← List.count_append]
    exact hcount

/-- A task that has yielded or been woken is put into the queue. -/
theorem Placed.queue {a : τ} {p : Place κ} {seated : Bool} {l l' : List τ}
    (hk : Placed isIdle P k) (hold : At k a p) (hp : p = .yielding c ∨ p = .waking c)
    (hrole : k.role c = .yielding ∧ seated = false ∨ ∃ w, k.role c = .work seated w)
    (hready : k.ready c = l ++ l') :
    Placed isIdle P
      ((k.setReady c (l ++ a :: l')).setRole c (.work seated .none)) := by
  have hpc : p.cpu = c := by rcases hp with rfl | rfl <;> rfl
  have hidle : ∀ d, k.role d ≠ .off → k.idle d ≠ a := by
    rintro d hd rfl
    rcases hp with rfl | rfl <;> simpa using hk.idle d _ hd hold
  have hst : P a → k.state a = .ready := by
    intro ha
    rcases hp with rfl | rfl <;> exact hk.fits _ _ ha hold
  refine hk.moveAt (c := c) (a := a) (n := some (.ready c)) (hk.here hold hpc)
    ?_ ?_ (fun _ _ => rfl) rfl rfl ?_ (fun ha _ => hk.made _ _ ha hold) ?_ ?_ ?_
  · intro d hd
    simp [hd]
  · intro t q hqc hq
    rcases at_work hq hqc (Function.update_self _ _ _) with ⟨rfl, rfl, rfl⟩ | ⟨-, hw⟩ | ⟨rfl, ht⟩
    · -- the current task keeps its seat
      rcases hrole with ⟨-, hfalse⟩ | ⟨w, hw⟩
      · cases hfalse
      · have hseat : At k (k.current c) (.seat c) := ⟨⟨w, hw⟩, rfl⟩
        refine .inr ⟨hk.other (q := .seat c) hold hseat ?_, hseat⟩
        rcases hp with rfl | rfl <;> simp
    · cases hw
    · by_cases hta : t = a
      · exact .inl ⟨hta, rfl⟩
      · refine .inr ⟨fun _ => hta, ?_⟩
        simpa [At, hready, hta] using ht
  · rcases hrole with ⟨h, -⟩ | ⟨w, h⟩ <;> simp [h]
  · intro q hq
    cases hq
    exact ⟨fun ha => ⟨hk.made _ _ ha hold, hst ha⟩,
      fun d hd hcur => absurd hcur (hidle d hd)⟩
  · intro d hd hcur
    exact absurd hcur (hidle d hd)
  · intro t ht
    simp only [Core.setRole_ready, Core.setReady_ready, Function.update_self]
    refine count_insert ?_ (hready ▸ hk.once t c ht)
    rintro rfl hmem
    have h := hk.unique _ p (.ready c) ht hold (by rw [At, hready]; exact hmem)
    rcases hp with rfl | rfl <;> cases h

/-- A blocked task is at no place, so waking it gives it one. -/
theorem Placed.wake {seated : Bool} {u : τ} (hk : Placed isIdle P k)
    (hrole : k.role c = .work seated .none) (hblocked : k.state u = .blocked) :
    Placed isIdle P ((k.setState u .ready).setRole c (.work seated (.spinning u))) := by
  have hother : ∀ t p, At k t p → P t → t ≠ u := by
    rintro t p hp ht rfl
    exact hk.not_blocked ht hp hblocked
  have hidle : ∀ d, k.role d ≠ .off → k.idle d ≠ u := by
    rintro d hd rfl
    rcases hk.idleState d hd with h | h <;> rw [h] at hblocked <;> cases hblocked
  refine hk.moveAt (c := c) (a := u) (n := some (.waking c))
    (fun hu p hp => absurd rfl (hother u p hp hu)) ?_ ?_ ?_ rfl rfl ?_
    (fun hu _ => hk.fresh u hu hblocked) ?_ ?_ ?_
  · intro d hd
    simp [hd]
  · intro t q hqc hq
    rcases at_work hq hqc (Function.update_self _ _ _) with ⟨rfl, rfl, rfl⟩ | ⟨rfl, hw⟩ | ⟨rfl, ht⟩
    · have hseat : At k (k.current c) (.seat c) := ⟨⟨_, hrole⟩, rfl⟩
      exact .inr ⟨hother _ _ hseat, hseat⟩
    · cases hw
      exact .inl ⟨rfl, rfl⟩
    · exact .inr ⟨hother _ _ (show At k t (.ready c) from ht), ht⟩
  · intro t ht
    simp [ht]
  · simp [hrole]
  · intro p hp
    cases hp
    exact ⟨fun hu => ⟨hk.fresh u hu hblocked, by simp [Place.Allows]⟩,
      fun d hd hcur => absurd hcur (hidle d hd)⟩
  · intro d hd hcur
    exact absurd hcur (hidle d hd)
  · intro t ht
    exact hk.once t c ht

omit [DecidableEq κ] in
theorem Placed.wakeIdle {u : τ} (hk : Placed isIdle P k) (hblocked : k.state u = .blocked) :
    Placed isIdle P (k.setState u .ready) := by
  refine hk.move (a := u) (n := none) ?_ ?_ (fun _ h => h) rfl (fun _ => .rfl) ?_
    (fun p hp => by cases hp) ?_ (fun t c ht => hk.once t c ht)
  · intro t p hp
    have hp : At k t p := by cases p <;> exact hp
    refine .inr ⟨?_, hp⟩
    rintro ht rfl
    exact hk.not_blocked ht hp hblocked
  · intro t ht
    simp [ht]
  · intro hu _
    exact hk.fresh u hu hblocked
  · rintro d hd rfl
    rcases hk.idleState d hd with h | h <;> rw [h] at hblocked <;> cases hblocked

theorem Placed.pass {seated : Bool} {u : τ} (hk : Placed isIdle P k)
    (hrole : k.role c = .work seated (.spinning u)) :
    Placed isIdle P (k.setRole c (.work seated (.passed u))) := by
  refine hk.same ?_ rfl rfl rfl ?_ rfl
  · intro t p hp
    by_cases hpc : p.cpu = c
    · rcases at_work hp hpc (Function.update_self _ _ _) with ⟨rfl, rfl, rfl⟩ | ⟨rfl, hw⟩ |
        ⟨rfl, ht⟩
      · exact ⟨⟨_, hrole⟩, rfl⟩
      · rw [At, hrole]
        exact hw
      · exact ht
    · rwa [at_congr (j := k.setRole c _) (Function.update_of_ne hpc _ _) rfl rfl] at hp
  · intro d
    by_cases hd : d = c
    · subst hd
      simp [hrole]
    · simp [hd]

/-- The chosen task comes from the queue of its CPU. -/
theorem Placed.pick {n : τ} {l l' : List τ} (hk : Placed isIdle P k)
    (hrole : k.role c = .work false .none) (hready : k.ready c = l ++ n :: l') :
    Placed isIdle P ((k.setReady c (l ++ l')).setRole c (.chosen n)) := by
  have hold : At k n (.ready c) := by
    rw [At, hready]
    simp
  have hidle : ∀ d, k.role d ≠ .off → k.idle d ≠ n := by
    rintro d hd rfl
    simpa using hk.idle d _ hd hold
  refine hk.moveAt (c := c) (a := n) (n := some (.chosen c)) (hk.here hold rfl)
    ?_ ?_ (fun _ _ => rfl) rfl rfl ?_ (fun ha _ => hk.made _ _ ha hold) ?_ ?_ ?_
  · intro d hd
    simp [hd]
  · intro t p hpc hp
    rcases at_chosen hp hpc (Function.update_self _ _ _) with ⟨rfl, rfl⟩ | ⟨rfl, ht⟩
    · exact .inl ⟨rfl, rfl⟩
    · have hmem : t ∈ l ++ l' := by simpa using ht
      refine .inr ⟨?_, ?_⟩
      · rintro hPt rfl
        have hcount := hk.once t c hPt
        rw [hready, List.count_append, List.count_cons_self, ← Nat.add_assoc,
          ← List.count_append] at hcount
        have hpos : 0 < (l ++ l').count t := List.count_pos_iff.mpr hmem
        omega
      · rw [At, hready]
        simp only [List.mem_append, List.mem_cons] at hmem ⊢
        tauto
  · simp [hrole]
  · intro p hp
    cases hp
    exact ⟨fun ha => ⟨hk.made _ _ ha hold, .inr (hk.fits _ _ ha hold)⟩,
      fun d hd hcur => absurd hcur (hidle d hd)⟩
  · intro d hd hcur
    exact absurd hcur (hidle d hd)
  · intro t ht
    have hcount := hk.once t c ht
    simp only [Core.setRole_ready, Core.setReady_ready, Function.update_self]
    rw [hready, List.count_append, List.count_cons] at hcount
    rw [List.count_append]
    omega

/-- With an empty queue the idle task of the CPU is chosen. -/
theorem Placed.pickIdle (hk : Placed isIdle P k) (hrole : k.role c = .work false .none) :
    Placed isIdle P (k.setRole c (.chosen (k.idle c))) := by
  have hon : k.role c ≠ .off := by simp [hrole]
  have hnone : ∀ p, ¬ At k (k.idle c) p := by
    intro p hp
    rcases hk.idle c p hon hp with rfl | rfl | rfl
    · obtain ⟨⟨w, hw⟩, -⟩ := hp
      rw [hrole] at hw
      cases hw
    · rw [At, hrole] at hp
      cases hp
    · rcases hp with hp | hp <;> rw [hrole] at hp <;> cases hp
  have hst := hk.idleState c hon
  refine hk.moveAt (c := c) (a := k.idle c) (n := some (.chosen c))
    (fun _ p hp => absurd hp (hnone p)) ?_ ?_ (fun _ _ => rfl) rfl rfl ?_
    (fun _ _ => (hk.idleMade c hon).1) ?_ ?_ ?_
  · intro d hd
    simp [hd]
  · intro t p hpc hp
    rcases at_chosen hp hpc (Function.update_self _ _ _) with ⟨rfl, rfl⟩ | ⟨rfl, ht⟩
    · exact .inl ⟨rfl, rfl⟩
    · refine .inr ⟨?_, ht⟩
      rintro - rfl
      exact hnone (.ready c) ht
  · simp [hrole]
  · intro p hp
    cases hp
    refine ⟨fun _ => ⟨(hk.idleMade c hon).1, hst⟩, ?_⟩
    intro d hd hcur
    rw [hk.idleOwn d c hd hon hcur]
    simp
  · intro d hd hcur
    exact hst
  · intro t ht
    exact hk.once t c ht

/-- The chosen task is marked as running; it may be the current one. -/
theorem Placed.start {n : τ} (hk : Placed isIdle P k) (hrole : k.role c = .chosen n) :
    Placed isIdle P ((k.setState n .running).setRole c
      (if n = k.current c then .work true .none else .starting n)) := by
  have hold : At k n (.chosen c) := hrole
  have hon : k.role c ≠ .off := by simp [hrole]
  have hidle : ∀ d, k.role d ≠ .off → k.idle d = n → d = c := by
    rintro d hd rfl
    rcases hk.idle d _ hd hold with h | h | h <;> cases h
    rfl
  by_cases hn : n = k.current c
  · rw [if_pos hn]
    refine hk.moveAt (c := c) (a := n) (n := some (.seat c)) (hk.here hold rfl)
      ?_ ?_ ?_ rfl rfl ?_ (fun ha _ => hk.made _ _ ha hold) ?_ ?_ ?_
    · intro d hd
      simp [hd]
    · intro t p hpc hp
      rcases at_work hp hpc (Function.update_self _ _ _) with ⟨rfl, -, rfl⟩ | ⟨-, hw⟩ | ⟨rfl, ht⟩
      · exact .inl ⟨hn.symm, rfl⟩
      · cases hw
      · exact .inr (hk.queued hold ht (by simp))
    · intro t ht
      simp [ht]
    · simp [hrole]
    · intro p hp
      cases hp
      refine ⟨fun ha => ⟨hk.made _ _ ha hold, by simp [Place.Allows]⟩, ?_⟩
      intro d hd hcur
      simp [hidle d hd hcur]
    · intro d _ _
      simp
    · intro t ht
      exact hk.once t c ht
  · rw [if_neg hn]
    refine hk.moveAt (c := c) (a := n) (n := some (.started c)) (hk.here hold rfl)
      ?_ ?_ ?_ rfl rfl ?_ (fun ha _ => hk.made _ _ ha hold) ?_ ?_ ?_
    · intro d hd
      simp [hd]
    · intro t p hpc hp
      rcases at_started hp hpc (.inl (Function.update_self _ _ _)) with ⟨rfl, rfl⟩ | ⟨rfl, ht⟩
      · exact .inl ⟨rfl, rfl⟩
      · exact .inr (hk.queued hold ht (by simp))
    · intro t ht
      simp [ht]
    · simp [hrole]
    · intro p hp
      cases hp
      refine ⟨fun ha => ⟨hk.made _ _ ha hold, by simp [Place.Allows]⟩, ?_⟩
      intro d hd hcur
      simp [hidle d hd hcur]
    · intro d _ _
      simp
    · intro t ht
      exact hk.once t c ht

theorem Placed.claim {n : τ} (hk : Placed isIdle P k) (hrole : k.role c = .starting n) :
    Placed isIdle P ((k.setOnCpu n true).setRole c (.claimed n)) := by
  refine hk.same ?_ rfl rfl rfl ?_ rfl
  · intro t p hp
    by_cases hpc : p.cpu = c
    · rcases at_started hp hpc (.inr (Function.update_self _ _ _)) with ⟨rfl, rfl⟩ | ⟨rfl, ht⟩
      · exact .inl hrole
      · exact ht
    · rwa [at_congr (j := (k.setOnCpu n true).setRole c _) (Function.update_of_ne hpc _ _)
        rfl rfl] at hp
  · intro d
    by_cases hd : d = c
    · subst hd
      simp [hrole]
    · simp [hd]

/-- The started task becomes the current one. -/
theorem Placed.switch {n : τ} (hk : Placed isIdle P k) (hrole : k.role c = .claimed n) :
    Placed isIdle P (((k.setPrev c (some (k.current c))).setCurrent c n).setRole c
      (.work true .none)) := by
  have hold : At k n (.started c) := .inr hrole
  have hidle : ∀ d, k.role d ≠ .off → k.idle d = n → d = c := by
    rintro d hd rfl
    rcases hk.idle d _ hd hold with h | h | h <;> cases h
    rfl
  refine hk.moveAt (c := c) (a := n) (n := some (.seat c)) (hk.here hold rfl)
    ?_ ?_ (fun _ _ => rfl) rfl rfl ?_ (fun ha _ => hk.made _ _ ha hold) ?_ ?_ ?_
  · intro d hd
    simp [hd]
  · intro t p hpc hp
    rcases at_work hp hpc (Function.update_self _ _ _) with ⟨rfl, -, ht⟩ | ⟨-, hw⟩ | ⟨rfl, ht⟩
    · exact .inl ⟨by simpa using ht, rfl⟩
    · cases hw
    · exact .inr (hk.queued hold ht (by simp))
  · simp [hrole]
  · intro p hp
    cases hp
    refine ⟨fun ha => ⟨hk.made _ _ ha hold, hk.fits n (.started c) ha hold⟩, ?_⟩
    intro d hd hcur
    simp [hidle d hd hcur]
  · intro d hd hcur
    exact hcur ▸ hk.idleState d hd
  · intro t ht
    exact hk.once t c ht

theorem Placed.clear (hk : Placed isIdle P k) (x : Option τ) :
    Placed isIdle P ((k.clearOnCpu x).setPrev c none) := by
  cases x with
  | none => exact hk.same (fun _ p hp => by cases p <;> exact hp) rfl rfl rfl (fun _ => .rfl) rfl
  | some y => exact hk.same (fun _ p hp => by cases p <;> exact hp) rfl rfl rfl (fun _ => .rfl) rfl

/-- Marking a task outside `P` as blocked concerns no place of a task in `P`. -/
theorem Placed.reblock {u : τ} (hk : Placed isIdle P k) (hu : ¬ P u)
    (hrole : k.role c = .work true .none) (hidle : isIdle u = false) :
    Placed isIdle P ((k.setState u .blocked).setRole c (.work false .none)) := by
  have hne : ∀ t, P t → t ≠ u := by
    rintro t ht rfl
    exact hu ht
  refine hk.moveAt (c := c) (a := u) (n := none) (fun h => absurd h hu)
    ?_ ?_ ?_ rfl rfl ?_ (fun h _ => absurd h hu) (fun p hp => by cases hp) ?_ ?_
  · intro d hd
    simp [hd]
  · intro t p hpc hp
    rcases at_work hp hpc (Function.update_self _ _ _) with ⟨-, hfalse, -⟩ | ⟨-, hw⟩ | ⟨rfl, ht⟩
    · cases hfalse
    · cases hw
    · exact .inr ⟨hne t, ht⟩
  · intro t ht
    simp [ht]
  · simp [hrole]
  · intro d hd hcur
    exact absurd hcur (hk.not_idle hidle d hd)
  · intro t ht
    exact hk.once t c ht

theorem at_boot {m i t : τ} {p : Place κ} (hp : At (k.boot c m i) t p) :
    (t = m ∧ p = .seat c) ∨ (At k t p ∧ p.cpu ≠ c) := by
  by_cases hpc : p.cpu = c
  · rcases at_work hp hpc (Function.update_self _ _ _) with ⟨rfl, -, ht⟩ | ⟨-, hw⟩ | ⟨rfl, ht⟩
    · exact .inl ⟨by simpa using ht, rfl⟩
    · cases hw
    · simp at ht
  · rw [at_congr (Function.update_of_ne hpc _ _)
      (Function.update_of_ne hpc _ _) (Function.update_of_ne hpc _ _)] at hp
    exact .inr ⟨hp, hpc⟩

theorem Placed.boot {m i : τ} (hk : Placed isIdle P k) (hidle : ∀ t, isIdle t = true → P t)
    (hm : k.created m = false) (hi : k.created i = false) (hii : isIdle i = true) :
    Placed isIdle P (k.boot c m i) := by
  have hold : ∀ t, k.created t = true → t ≠ m ∧ t ≠ i := by
    intro t ht
    constructor <;> rintro rfl <;> simp_all
  have hon : ∀ d, d ≠ c → (k.boot c m i).role d ≠ .off → k.role d ≠ .off := by
    intro d hd hrole
    simpa [hd] using hrole
  constructor
  · intro t p q ht hp hq
    rcases at_boot hp with ⟨rfl, rfl⟩ | ⟨hp, -⟩ <;> rcases at_boot hq with ⟨htm, rfl⟩ | ⟨hq, -⟩
    · rfl
    · exact absurd rfl (hold _ (hk.made _ _ ht hq)).1
    · exact absurd htm (hold _ (hk.made _ _ ht hp)).1
    · exact hk.unique t p q ht hp hq
  · intro t d ht
    by_cases hd : d = c
    · simp [hd]
    · simpa [hd] using hk.once t d ht
  · intro t p ht hp
    rcases at_boot hp with ⟨rfl, rfl⟩ | ⟨hp, -⟩
    · simp [Place.Allows]
    · have hne := hold t (hk.made t p ht hp)
      simpa [hne.1, hne.2] using hk.fits t p ht hp
  · intro d p hd hp
    by_cases hdc : d = c
    · subst hdc
      simp only [Core.boot_idle, Function.update_self] at hp
      rcases at_boot hp with ⟨-, rfl⟩ | ⟨hp, -⟩
      · simp
      · exact absurd rfl (hold i (hk.made i p (hidle i hii) hp)).2
    · have hd := hon d hdc hd
      simp only [Core.boot_idle, Function.update_of_ne hdc] at hp
      rcases at_boot hp with ⟨hdm, -⟩ | ⟨hp, -⟩
      · exact absurd hdm (hold _ (hk.idleMade d hd).1).1
      · exact hk.idle d p hd hp
  · intro d hd
    by_cases hdc : d = c
    · subst hdc
      simp only [Core.boot_idle, Core.boot_state, Function.update_self]
      by_cases him : i = m <;> simp [him]
    · have hd := hon d hdc hd
      have hne := hold _ (hk.idleMade d hd).1
      simpa [hdc, hne.1, hne.2] using hk.idleState d hd
  · intro t p ht hp
    rcases at_boot hp with ⟨rfl, rfl⟩ | ⟨hp, -⟩
    · simp
    · have hmade := hk.made t p ht hp
      have hne := hold t hmade
      simpa [hne.1, hne.2] using hmade
  · intro t ht hblocked
    by_cases htm : t = m
    · simp [htm]
    · by_cases hti : t = i
      · simp [hti, Function.update_apply]
      · simp only [Core.boot_state, Core.boot_created, Function.update_of_ne htm,
          Function.update_of_ne hti] at hblocked ⊢
        exact hk.fresh t ht hblocked
  · intro d hd
    by_cases hdc : d = c
    · subst hdc
      simp [hii, Function.update_apply]
    · have hd := hon d hdc hd
      have hne := hold _ (hk.idleMade d hd).1
      simpa [hdc, hne.1, hne.2] using hk.idleMade d hd
  · intro d e hd he hde
    by_cases hdc : d = c <;> by_cases hec : e = c
    · rw [hdc, hec]
    · have he := hon e hec he
      have hne := (hold _ (hk.idleMade e he).1).2
      simp [hdc, hec] at hde
      exact absurd hde.symm hne
    · have hd := hon d hdc hd
      have hne := (hold _ (hk.idleMade d hd).1).2
      simp [hdc, hec] at hde
      exact absurd hde hne
    · simp only [Core.boot_idle, Function.update_of_ne hdc, Function.update_of_ne hec] at hde
      exact hk.idleOwn d e (hon d hdc hd) (hon e hec he) hde

theorem Placed.spawn {d : κ} {t : τ} {l l' : List τ} (hk : Placed isIdle P k)
    (hnew : k.created t = false) (hidle : isIdle t = false) (hready : k.ready d = l ++ l') :
    Placed isIdle P ((k.create t).setReady d (l ++ t :: l')) := by
  have hother : ∀ u p, At k u p → P u → u ≠ t := by
    rintro u p hp hu rfl
    rw [hk.made u p hu hp] at hnew
    cases hnew
  refine hk.move (a := t) (n := some (.ready d)) ?_ ?_ ?_ rfl (fun _ => .rfl) ?_ ?_ ?_ ?_
  · intro u p hp
    by_cases hpd : p = .ready d
    · subst hpd
      by_cases hut : u = t
      · exact .inl ⟨hut, rfl⟩
      · have hmem : At k u (.ready d) := by simpa [At, hready, hut] using hp
        exact .inr ⟨fun _ => hut, hmem⟩
    · have hp : At k u p := by
        cases p with
        | ready e =>
            have hed : e ≠ d := by
              rintro rfl
              exact hpd rfl
            simpa [At, hed] using hp
        | _ => exact hp
      exact .inr ⟨hother u p hp, hp⟩
  · intro u hu
    simp [hu]
  · intro u hu
    by_cases hut : u = t <;> simp [hut, hu]
  · intro _ _
    simp
  · intro p hp
    cases hp
    refine ⟨fun _ => by simp [Place.Allows], ?_⟩
    intro e he hcur
    exact absurd hcur (hk.not_idle hidle e he)
  · intro e he hcur
    exact absurd hcur (hk.not_idle hidle e he)
  · intro u e hu
    by_cases hed : e = d
    · subst hed
      simp only [Core.setReady_ready, Function.update_self]
      refine count_insert ?_ (hready ▸ hk.once u e hu)
      rintro rfl hmem
      exact hother u (.ready e) (by rw [At, hready]; exact hmem) hu rfl
    · simpa [hed] using hk.once u e hu

/-- Every move keeps the tasks of `P` in at most one place, unless it marks one of
them as blocked after it has left its CPU. -/
theorem Placed.step {m : Move τ} (hk : Placed isIdle P k)
    (hidle : ∀ t, isIdle t = true → P t) (hstep : Step isIdle k c m k')
    (hreblock : ∀ u, m = .reblock u → ¬ P u) : Placed isIdle P k' := by
  cases hstep with
  | stay => exact hk
  | boot _ hm hi hii => exact hk.boot hidle hm hi hii
  | spawn hnew hi hready => exact hk.spawn hnew hi hready
  | yield hrole hi _ =>
      exact hk.unseat hrole (.inr ⟨rfl, rfl, rfl, hi⟩) (fun _ => .inr rfl)
  | yieldIdle hrole _ _ =>
      exact hk.unseat hrole (.inl ⟨rfl, rfl⟩) (fun _ => .inr rfl)
  | yieldFail hrole _ => exact hk.yieldFail hidle hrole
  | requeue hrole hready =>
      exact hk.queue (p := .yielding _) ⟨hrole, rfl⟩ (.inl rfl) (.inl ⟨hrole, rfl⟩) hready
  | leave hrole hi _ =>
      exact hk.unseat hrole (.inl ⟨rfl, rfl⟩) (fun h => by rw [hi] at h; cases h)
  | wake hrole hblocked => exact hk.wake hrole hblocked
  | wakeIdle _ hblocked _ => exact hk.wakeIdle hblocked
  | pass hrole _ => exact hk.pass hrole
  | enqueue hrole hready =>
      exact hk.queue (p := .waking _) (by rw [At, hrole]; rfl) (.inr rfl)
        (.inr ⟨_, hrole⟩) hready
  | pick hrole hready => exact hk.pick hrole hready
  | pickIdle hrole _ => exact hk.pickIdle hrole
  | start hrole => exact hk.start hrole
  | claim hrole => exact hk.claim hrole
  | switch hrole => exact hk.switch hrole
  | clear _ _ => exact hk.clear _
  | reblock hrole _ hi => exact hk.reblock (hreblock _ rfl) hrole hi

/-- A task that has exited never changes its state again. -/
theorem Placed.dead {m : Move τ} {t : τ} (hk : Placed isIdle P k) (ht : P t)
    (hstep : Step isIdle k c m k') (hreblock : ∀ u, m = .reblock u → u ≠ t)
    (hdead : k.state t = .exited) (hmade : k.created t = true) :
    k'.state t = .exited ∧ k'.created t = true := by
  have hset : ∀ (u : τ) (st : TaskState), u ≠ t →
      (k.setState u st).state t = .exited := by
    intro u st hut
    simp [hut.symm, hdead]
  cases hstep with
  | stay => exact ⟨hdead, hmade⟩
  | @boot m i _ hm hi _ =>
      have hmt : t ≠ m := by
        rintro rfl
        rw [hm] at hmade
        cases hmade
      have hit : t ≠ i := by
        rintro rfl
        rw [hi] at hmade
        cases hmade
      simp [hmt, hit, hdead, hmade]
  | @spawn d u l l' hnew _ _ =>
      have hut : t ≠ u := by
        rintro rfl
        rw [hnew] at hmade
        cases hmade
      simp [hut, hdead, hmade]
  | yield _ _ hrun =>
      refine ⟨hset _ _ ?_, hmade⟩
      rintro rfl
      rw [hrun] at hdead
      cases hdead
  | yieldIdle _ _ hrun =>
      refine ⟨hset _ _ ?_, hmade⟩
      rintro rfl
      rw [hrun] at hdead
      cases hdead
  | leave hrole _ _ =>
      refine ⟨hset _ _ ?_, hmade⟩
      rintro rfl
      have hfits : k.state _ = .running := hk.fits _ (.seat c) ht ⟨⟨_, hrole⟩, rfl⟩
      rw [hfits] at hdead
      cases hdead
  | wake _ hblocked =>
      refine ⟨hset _ _ ?_, hmade⟩
      rintro rfl
      rw [hblocked] at hdead
      cases hdead
  | wakeIdle _ hblocked _ =>
      refine ⟨hset _ _ ?_, hmade⟩
      rintro rfl
      rw [hblocked] at hdead
      cases hdead
  | start hrole =>
      refine ⟨hset _ _ ?_, hmade⟩
      rintro rfl
      rcases hk.fits _ (.chosen c) ht hrole with h | h <;> rw [h] at hdead <;> cases hdead
  | reblock => exact ⟨hset _ _ (hreblock _ rfl), hmade⟩
  | @clear x _ _ =>
      cases x with
      | none => exact ⟨hdead, hmade⟩
      | some y => exact ⟨hdead, hmade⟩
  | yieldFail => exact ⟨hdead, hmade⟩
  | requeue => exact ⟨hdead, hmade⟩
  | pass => exact ⟨hdead, hmade⟩
  | enqueue => exact ⟨hdead, hmade⟩
  | pick => exact ⟨hdead, hmade⟩
  | pickIdle => exact ⟨hdead, hmade⟩
  | claim => exact ⟨hdead, hmade⟩
  | switch => exact ⟨hdead, hmade⟩

end Handoff
