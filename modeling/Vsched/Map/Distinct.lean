import Vsched.Map.Account

/-!
# Insertions with pairwise distinct keys

If every key is inserted by one call only, and the map is never cleared, then the
first pass of an `insert` finds its key nowhere: no entry, not even one left behind
in a slot that has been emptied, has the key of an insertion still in progress. So
no entry is ever updated, and each pair is stored at most once.
-/

namespace BTreeMap

variable {K V : Type*}

def Event.inserts : Event K V → Option (K × V)
  | .call (.insert key value) => some (key, value)
  | _ => none

def Event.stores : Event K V → Option (K × V)
  | .stored _ p => some p
  | _ => none

/-- The pairs whose insertion has been called for. -/
def inserts (h : History K V) : List (K × V) :=
  h.filterMap fun a => a.2.inserts

/-- The pairs that have been put into slots. -/
def stored (h : History K V) : List (K × V) :=
  h.filterMap fun a => a.2.stores

theorem mem_inserts {h : History K V} {p : K × V} :
    p ∈ inserts h ↔ ∃ t, (t, .call (.insert p.1 p.2)) ∈ h := by
  rw [inserts, List.mem_filterMap]
  constructor
  · rintro ⟨⟨t, a⟩, hmem, ha⟩
    cases a with
    | call c =>
        cases c with
        | insert key value =>
            cases ha
            exact ⟨t, hmem⟩
        | popFirst => cases ha
        | clear => cases ha
    | stored i q => cases ha
    | took i => cases ha
    | freed i q => cases ha
    | ret r => cases ha
    | silent => cases ha
  · rintro ⟨t, hmem⟩
    exact ⟨_, hmem, rfl⟩

theorem inserts_tick {cap t : ℕ} {h : History K V} {m m' : Mem K V} {p : Pc K V}
    {r : Pc K V × Event K V} (hturn : Turn cap m p m' r) :
    inserts ((t, r.2) :: h) = inserts h := by
  cases hturn with
  | minor _ hminor =>
      have hevent := hminor.event
      unfold inserts
      rw [List.filterMap_cons]
      cases ha : r.2 <;> rw [ha] at hevent <;> first | rfl | exact hevent.elim
  | stored x i => rfl
  | updated x i v => rfl
  | counted x => rfl
  | freed i x => rfl
  | uncounted p => rfl
  | cleared i honward => cases honward <;> rfl

theorem stored_tick {cap t : ℕ} {h : History K V} {m m' : Mem K V} {p : Pc K V}
    {r : Pc K V × Event K V} (hturn : Turn cap m p m' r) :
    stored ((t, r.2) :: h) = stored h ∨
      ∃ q, stored ((t, r.2) :: h) = q :: stored h ∧ p.pending = some q ∧ r.1.pending = none := by
  cases ha : r.2 with
  | stored i q => exact .inr ⟨q, rfl, hturn.stored_pending ha⟩
  | _ => exact .inl rfl

/-- No key is inserted twice, and the map is not cleared. -/
def Distinct (h : History K V) (_ : State K V) : ℕ × Event K V → Prop
  | (_, .call (.insert key _)) => key ∉ (inserts h).map Prod.fst
  | (_, .call .clear) => False
  | _ => True

instance [DecidableEq K] (h : History K V) (s : State K V) :
    ∀ a, Decidable (Distinct h s a)
  | (_, .call (.insert key _)) => inferInstanceAs (Decidable (key ∉ _))
  | (_, .call .popFirst) => .isTrue trivial
  | (_, .call .clear) => .isFalse id
  | (_, .stored _ _) => .isTrue trivial
  | (_, .took _) => .isTrue trivial
  | (_, .freed _ _) => .isTrue trivial
  | (_, .ret _) => .isTrue trivial
  | (_, .silent) => .isTrue trivial

/-- The slot is locked to pop its entry. -/
def Job.Plain : Job K V → Prop
  | .pop _ _ => True
  | _ => False

/-- The thread neither updates an entry nor clears the map. -/
def Pc.Plain : Pc K V → Prop
  | .enter .clear => False
  | .lock j => j.Plain
  | .cas j _ => j.Plain
  | .restore j _ => j.Plain
  | .fetch _ _ => False
  | .rewrite _ _ _ => False
  | .republish _ _ _ => False
  | .updated _ _ => False
  | .vacate _ (.clear _) => False
  | .uncount (.clear _) => False
  | .sweep _ => False
  | _ => True

theorem Onward.plain {cap : ℕ} {q : K × V} {r : Pc K V × Event K V}
    (h : Onward cap (some q) r) : r.1.Plain := by
  cases h <;> exact trivial

variable {cap : ℕ} {h : History K V} {s : State K V} {m : Mem K V} {p : Pc K V} {t : ℕ}

section Plain

variable [LinearOrder K]

theorem scanFrom_plain (retries i : ℕ) (cs : List (Candidate K V)) :
    (scanFrom cap retries i cs).1.Plain := by
  unfold scanFrom
  split
  · exact trivial
  · split <;> exact trivial

theorem popRetry_plain (retries : ℕ) : (popRetry cap retries : Pc K V × Event K V).1.Plain := by
  unfold popRetry
  split
  · exact trivial
  · exact scanFrom_plain _ _ _

/-- A call other than `clear` updates no entry if the first pass of an `insert` finds
its key nowhere. -/
theorem tick_plain (hplain : p.Plain) (hbound : p.Bounded cap)
    (hpeek : ∀ x i version e, p = .peek x i version → m.entry i = some e → e.key ≠ x.key) :
    (tick cap m p).2.1.Plain := by
  cases p with
  | idle => exact trivial
  | enter c =>
      cases c with
      | insert key value => exact (insertFirst_onward key value _).plain
      | popFirst => exact popRetry_plain 16
      | clear => exact hplain.elim
  | look x i =>
      simp only [tick]
      split
      · exact trivial
      · exact (lookNext_onward hbound).plain
  | peek x i version =>
      simp only [tick]
      split
      case _ e hentry =>
        rw [if_neg fun hmatch => hpeek x i version e rfl hentry hmatch.1]
        exact (lookNext_onward hbound).plain
      · exact (lookNext_onward hbound).plain
  | lock j =>
      cases j with
      | update x i version => exact hplain.elim
      | pop retries c =>
          simp only [tick]
          split
          · exact trivial
          · exact popRetry_plain retries
      | clear i version => exact hplain.elim
  | cas j current =>
      cases j with
      | update x i version => exact hplain.elim
      | pop retries c =>
          simp only [tick]
          split
          · unfold Job.locked
            split <;> exact trivial
          · exact popRetry_plain retries
      | clear i version => exact hplain.elim
  | fetch x i => exact hplain.elim
  | rewrite x i v => exact hplain.elim
  | republish x i v => exact hplain.elim
  | updated x v => exact hplain.elim
  | claim x i =>
      simp only [tick]
      split
      · exact trivial
      · exact (claimNext_onward hbound).plain
  | write x i => exact trivial
  | publish x i => exact trivial
  | count x => exact trivial
  | scan retries i cs =>
      simp only [tick]
      split
      · exact trivial
      · exact scanFrom_plain _ _ _
  | check retries i version cs =>
      simp only [tick]
      split
      · split
        · exact trivial
        · exact scanFrom_plain _ _ _
      · exact scanFrom_plain _ _ _
  | recheck retries i version cs =>
      simp only [tick]
      split
      · exact trivial
      · exact scanFrom_plain _ _ _
  | copy retries i version cs =>
      simp only [tick]
      split <;> exact scanFrom_plain _ _ _
  | verify retries c =>
      simp only [tick]
      split
      · split <;> exact trivial
      · exact trivial
  | restore j lockedVersion =>
      cases j with
      | update x i version => exact hplain.elim
      | pop retries c => exact popRetry_plain retries
      | clear i version => exact hplain.elim
  | vacate i x =>
      cases x with
      | pop p => exact trivial
      | clear i => exact hplain.elim
  | uncount x =>
      cases x with
      | pop p => exact trivial
      | clear i => exact hplain.elim
  | sweep i => exact hplain.elim

/-- Entries are written by phase 2 and by an update only. -/
theorem tick_entry (hwrite : ∀ x i, p ≠ .write x i) (hrewrite : ∀ x i v, p ≠ .rewrite x i v) :
    (tick cap m p).1.entry = m.entry := by
  cases p with
  | enter c => cases c <;> rfl
  | write x i => exact absurd rfl (hwrite x i)
  | rewrite x i v => exact absurd rfl (hrewrite x i v)
  | uncount x => cases x <;> exact m.decLen_slots.2
  | _ =>
      simp only [tick]
      repeat' split
      all_goals rfl

end Plain

/-- The first pass of an `insert` finds its key nowhere: the pair a thread is about
to store has been asked for, its key has not been stored and no other thread has
it, and every entry left in a slot has been stored or will be. -/
structure Once (h : History K V) (s : State K V) : Prop where
  plain : ∀ t, (s.pc t).Plain
  called : ∀ t p, (s.pc t).pending = some p → p ∈ inserts h
  fresh : ∀ t p, (s.pc t).pending = some p → p.1 ∉ (stored h).map Prod.fst
  apart : ∀ t u p q, (s.pc t).pending = some p → (s.pc u).pending = some q → p.1 = q.1 → t = u
  written : ∀ i e, s.mem.entry i = some e →
    e.pair ∈ stored h ∨ ∃ t x j, s.pc t = .publish x j ∧ x.entry = e
  source : ∀ p ∈ stored h, p ∈ inserts h
  nodup : ((stored h).map Prod.fst).Nodup
  counted : ∀ t x, s.pc t = .count x → x.entry.pair ∈ stored h
  done : ∀ t k v, (t, .ret (.inserted k v (some none))) ∈ h → (k, v) ∈ stored h
  failed : ∀ t k v, (t, .ret (.inserted k v none)) ∈ h →
    (k, v) ∈ inserts h ∧ k ∉ (stored h).map Prod.fst ∧
      ∀ u p, (s.pc u).pending = some p → p.1 ≠ k

theorem Once.init : Once [] (State.init : State K V) where
  plain := fun _ => trivial
  called := fun _ _ hp => by cases hp
  fresh := fun _ _ hp => by cases hp
  apart := fun _ _ _ _ hp => by cases hp
  written := fun _ _ he => by cases he
  source := fun _ hp => by cases hp
  nodup := List.nodup_nil
  counted := fun _ _ hp => by cases hp
  done := fun _ _ _ hmem => by cases hmem
  failed := fun _ _ _ hmem => by cases hmem

/-- No entry has the key a thread looks for. -/
theorem Once.look_fails (honce : Once h s) {q : K × V} {i : ℕ} {e : Entry K V}
    (hpending : (s.pc t).pending = some q) (hpublish : ∀ x j, s.pc t ≠ .publish x j)
    (hentry : s.mem.entry i = some e) : e.key ≠ q.1 := by
  intro hkey
  rcases honce.written i e hentry with hstored | ⟨u, x, j, hu, rfl⟩
  · refine honce.fresh t q hpending ?_
    rw [← hkey]
    exact List.mem_map_of_mem hstored
  · have hpending' : (s.pc u).pending = some x.entry.pair := by rw [hu]; rfl
    have htu := honce.apart t u _ _ hpending hpending' hkey.symm
    subst htu
    exact hpublish x j hu

variable [LinearOrder K]

theorem Once.written_tick (honce : Once h s) {i : ℕ} {e : Entry K V}
    (hentry : (tick cap s.mem (s.pc t)).1.entry i = some e) :
    e.pair ∈ stored ((t, (tick cap s.mem (s.pc t)).2.2) :: h) ∨
      ∃ u x j, Function.update s.pc t (tick cap s.mem (s.pc t)).2.1 u = .publish x j ∧
        x.entry = e := by
  -- an entry that was there before the step
  have hold : ∀ p, s.pc t = p → s.mem.entry i = some e →
      e.pair ∈ stored ((t, (tick cap s.mem p).2.2) :: h) ∨
        ∃ u x j, Function.update s.pc t (tick cap s.mem p).2.1 u = .publish x j ∧ x.entry = e := by
    intro p hpc hentry
    rcases honce.written i e hentry with hmem | ⟨u, x, j, hu, rfl⟩
    · refine .inl ?_
      cases ha : (tick cap s.mem p).2.2 with
      | stored k q => exact List.mem_cons_of_mem _ hmem
      | _ => exact hmem
    · by_cases hut : u = t
      · subst hut
        rw [hu] at hpc
        subst hpc
        exact .inl (List.mem_cons_self (a := x.entry.pair))
      · exact .inr ⟨u, x, j, by rw [Function.update_of_ne hut, hu], rfl⟩
  cases hpc : s.pc t with
  | write x j =>
      rw [hpc] at hentry
      by_cases hij : i = j
      · subst hij
        refine .inr ⟨t, x, i, Function.update_self _ _ _, ?_⟩
        simpa [tick, Mem.setEntry] using hentry
      · refine hold _ hpc ?_
        simpa [tick, Mem.setEntry, hij] using hentry
  | rewrite x j v => exact (hpc ▸ honce.plain t : (Pc.rewrite x j v).Plain).elim
  | _ =>
      rw [hpc, tick_entry (by simp) (by simp)] at hentry
      exact hold _ hpc hentry

/-- A step of a thread keeps each insertion apart from the others. -/
theorem Once.tick (honce : Once h s) (hinv : Inv cap h s) :
    Once ((t, (BTreeMap.tick cap s.mem (s.pc t)).2.2) :: h)
      ⟨(BTreeMap.tick cap s.mem (s.pc t)).1,
        Function.update s.pc t (BTreeMap.tick cap s.mem (s.pc t)).2.1⟩ := by
  have hturn := tick_turn (m := s.mem) (hinv.bounded t)
  have hplain : (BTreeMap.tick cap s.mem (s.pc t)).2.1.Plain := by
    refine tick_plain (honce.plain t) (hinv.bounded t) ?_
    intro x i version e hpc hentry
    exact honce.look_fails (q := x.entry.pair) (by rw [hpc]; rfl) (by simp [hpc]) hentry
  have hwritten : ∀ i e, (BTreeMap.tick cap s.mem (s.pc t)).1.entry i = some e → _ :=
    fun i e => honce.written_tick (t := t)
  generalize BTreeMap.tick cap s.mem (s.pc t) = r at hturn hplain hwritten ⊢
  obtain ⟨m', r⟩ := r
  have hkept : ∀ u q, (Function.update s.pc t r.1 u).pending = some q →
      (s.pc u).pending = some q := by
    intro u q hq
    by_cases hut : u = t
    · subst hut
      exact hturn.kept (by simpa using hq)
    · simpa [hut] using hq
  have hinserts : inserts ((t, r.2) :: h) = inserts h := inserts_tick hturn
  have hmono : ∀ q, q ∈ stored h → q ∈ stored ((t, r.2) :: h) := by
    intro q hq
    rcases stored_tick (t := t) (h := h) hturn with hsame | ⟨q', hcons, -, -⟩
    · rwa [hsame]
    · rw [hcons]
      exact List.mem_cons_of_mem _ hq
  -- a key that is stored by this step is no other thread's
  have hfresh : ∀ k, k ∉ (stored h).map Prod.fst →
      (∀ q, (s.pc t).pending = some q → r.1.pending = none → q.1 ≠ k) →
      k ∉ (stored ((t, r.2) :: h)).map Prod.fst := by
    intro k hk hne
    rcases stored_tick (t := t) (h := h) hturn with hsame | ⟨q, hcons, hq, hnone⟩
    · rwa [hsame]
    · rw [hcons, List.map_cons, List.mem_cons, not_or]
      exact ⟨(hne q hq hnone).symm, hk⟩
  constructor
  case plain =>
    intro u
    by_cases hut : u = t
    · subst hut
      simpa using hplain
    · simpa [hut] using honce.plain u
  case called =>
    intro u q hq
    rw [hinserts]
    exact honce.called u q (hkept u q hq)
  case fresh =>
    intro u q hq
    refine hfresh q.1 (honce.fresh u q (hkept u q hq)) ?_
    intro q' hq' hnone hkey
    have hut := honce.apart t u q' q hq' (hkept u q hq) hkey
    subst hut
    simp [hnone] at hq
  case apart =>
    intro u v q q' hq hq' hkey
    exact honce.apart u v q q' (hkept u q hq) (hkept v q' hq') hkey
  case written => exact hwritten
  case source =>
    intro q hq
    rw [hinserts]
    rcases stored_tick (t := t) (h := h) hturn with hsame | ⟨q', hcons, hpending, -⟩
    · rw [hsame] at hq
      exact honce.source q hq
    · rw [hcons] at hq
      rcases List.mem_cons.mp hq with rfl | hq
      · exact honce.called t q hpending
      · exact honce.source q hq
  case nodup =>
    rcases stored_tick (t := t) (h := h) hturn with hsame | ⟨q', hcons, hpending, -⟩
    · rw [hsame]
      exact honce.nodup
    · rw [hcons, List.map_cons, List.nodup_cons]
      exact ⟨honce.fresh t q' hpending, honce.nodup⟩
  case counted =>
    intro u x hu
    by_cases hut : u = t
    · subst hut
      obtain ⟨i, ha⟩ := hturn.count_stored (by simpa using hu)
      rw [ha]
      exact List.mem_cons_self
    · exact hmono _ (honce.counted u x (by simpa [hut] using hu))
  case done =>
    intro u k v hmem
    rcases List.mem_cons.mp hmem with heq | hmem
    · obtain ⟨rfl, ha⟩ := Prod.mk.inj heq
      obtain ⟨x, hpc, hpair⟩ := hturn.inserted_count ha.symm
      rw [← hpair]
      exact hmono _ (honce.counted u x hpc)
    · exact hmono _ (honce.done u k v hmem)
  case failed =>
    intro u k v hmem
    rw [hinserts]
    rcases List.mem_cons.mp hmem with heq | hmem
    · obtain ⟨rfl, ha⟩ := Prod.mk.inj heq
      obtain ⟨hpending, hnone⟩ := hturn.failed_pending ha.symm
      refine ⟨honce.called u _ hpending, ?_, ?_⟩
      · have hsame : stored ((u, r.2) :: h) = stored h := by rw [← ha]; rfl
        rw [hsame]
        exact honce.fresh u _ hpending
      · intro w q hq hkey
        have hwu := honce.apart w u q _ (hkept w q hq) hpending hkey
        subst hwu
        simp [hnone] at hq
    · obtain ⟨hcalled, hk, hother⟩ := honce.failed u k v hmem
      refine ⟨hcalled, hfresh k hk fun q hq _ => hother t q hq, ?_⟩
      exact fun w q hq => hother w q (hkept w q hq)

omit [LinearOrder K] in
/-- A call with a key nobody has called with before. -/
theorem Once.call {c : Call K V} (honce : Once h s) (hidle : s.pc t = .idle)
    (hguard : Distinct h s (t, .call c)) :
    Once ((t, .call c) :: h) ⟨s.mem, Function.update s.pc t (.enter c)⟩ := by
  have hplain : (Pc.enter c).Plain := by
    cases c with
    | clear => exact hguard.elim
    | insert key value => exact trivial
    | popFirst => exact trivial
  -- the key of a new insertion is in nobody's hands
  have hpending : ∀ u q, (Function.update s.pc t (.enter c) u).pending = some q →
      (s.pc u).pending = some q ∨ u = t ∧ c = .insert q.1 q.2 := by
    intro u q hq
    by_cases hut : u = t
    · subst hut
      refine .inr ⟨rfl, ?_⟩
      cases c with
      | insert key value =>
          have heq : (key, value) = q := by simpa [Pc.pending] using hq
          rw [← heq]
      | popFirst => simp [Pc.pending] at hq
      | clear => simp [Pc.pending] at hq
    · exact .inl (by simpa [hut] using hq)
  have hmono : ∀ q, q ∈ inserts h → q ∈ inserts ((t, .call c) :: h) := by
    intro q hq
    cases c with
    | insert key value => exact List.mem_cons_of_mem _ hq
    | popFirst => exact hq
    | clear => exact hq
  have hnew : ∀ q : K × V, c = .insert q.1 q.2 → q.1 ∉ (inserts h).map Prod.fst := by
    rintro q rfl
    exact hguard
  constructor
  case plain =>
    intro u
    by_cases hut : u = t
    · subst hut
      simpa using hplain
    · simpa [hut] using honce.plain u
  case called =>
    intro u q hq
    rcases hpending u q hq with hq | ⟨-, rfl⟩
    · exact hmono q (honce.called u q hq)
    · exact List.mem_cons_self (a := q)
  case fresh =>
    intro u q hq hmem
    rcases hpending u q hq with hq | ⟨-, hc⟩
    · exact honce.fresh u q hq hmem
    · obtain ⟨q', hq', hkey⟩ := List.mem_map.mp hmem
      refine hnew q hc ?_
      rw [← hkey]
      exact List.mem_map_of_mem (honce.source q' hq')
  case apart =>
    intro u v q q' hq hq' hkey
    rcases hpending u q hq with hold | ⟨hut, hc⟩ <;>
      rcases hpending v q' hq' with hold' | ⟨hvt, hc'⟩
    · exact honce.apart u v q q' hold hold' hkey
    · refine absurd ?_ (hnew q' hc')
      rw [← hkey]
      exact List.mem_map_of_mem (honce.called u q hold)
    · refine absurd ?_ (hnew q hc)
      rw [hkey]
      exact List.mem_map_of_mem (honce.called v q' hold')
    · rw [hut, hvt]
  case written =>
    intro i e hentry
    rcases honce.written i e hentry with hmem | ⟨u, x, j, hu, he⟩
    · exact .inl hmem
    · have hut : u ≠ t := by
        rintro rfl
        rw [hidle] at hu
        cases hu
      exact .inr ⟨u, x, j, (Function.update_of_ne hut _ _).trans hu, he⟩
  case source => exact fun q hq => hmono q (honce.source q hq)
  case nodup => exact honce.nodup
  case counted =>
    intro u x hu
    have hut : u ≠ t := by
      rintro rfl
      simp at hu
    exact honce.counted u x (by simpa [hut] using hu)
  case done =>
    intro u k v hmem
    rcases List.mem_cons.mp hmem with heq | hmem
    · cases heq
    · exact honce.done u k v hmem
  case failed =>
    intro u k v hmem
    rcases List.mem_cons.mp hmem with heq | hmem
    · cases heq
    · obtain ⟨hcalled, hk, hother⟩ := honce.failed u k v hmem
      refine ⟨hmono _ hcalled, hk, ?_⟩
      intro w q hq hkey
      rcases hpending w q hq with hq | ⟨-, hc⟩
      · exact hother w q hq hkey
      · refine hnew q hc ?_
        rw [hkey]
        exact List.mem_map_of_mem hcalled

theorem Once.of_run (hrun : (machine K V cap).RunOf Distinct h s) : Once h s := by
  refine hrun.invariant ?_ ?_
  · rintro _ rfl
    exact .init
  · intro h s a s' hprev honce hguard hstep
    cases hstep with
    | call hidle => exact honce.call hidle hguard
    | tick _ => exact honce.tick (Inv.of_run hprev)

end BTreeMap
