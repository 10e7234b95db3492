import Vsched.Map.Attempts

/-!
# Each key stands in one slot of the lock-free map

A slot is committed to a key from the moment an `insert` of this key gets hold of it,
until its entry is taken out. An `insert` looks its key up slot by slot before it gets
hold of one, and nothing keeps another `insert` of the key from getting hold of a slot
that this pass is behind, nor the slot of the key from being locked for a moment when
the pass comes by. As long as neither happens, a pass that has found its key nowhere
leaves no slot committed to it, and no two slots ever hold equal keys.
-/

namespace BTreeMap

variable {K V : Type*}

/-- The slot that an `insert` has got hold of, and its key. -/
def Pc.fills : Pc K V → Option (ℕ × K)
  | .fetch x i => some (i, x.key)
  | .rewrite x i _ => some (i, x.key)
  | .republish x i _ => some (i, x.key)
  | .write x i => some (i, x.key)
  | .publish x i => some (i, x.key)
  | _ => none

/-- The slot that an `insert` gets hold of by its next access, and its key. -/
def Pc.grabs (m : Mem K V) : Pc K V → Option (ℕ × K)
  | .claim x i => if m.word i = .free then some (i, x.key) else none
  | .cas (.update x i version) current =>
      if m.word i = current ∧ current.version = version then some (i, x.key) else none
  | _ => none

theorem Pc.fills_of_grabs {m : Mem K V} {p : Pc K V} {x : ℕ × K} (h : p.grabs m = some x) :
    p.fills = none := by
  cases p with
  | claim x i => rfl
  | cas j current => rfl
  | _ => cases h

theorem Pc.held_of_fills {p : Pc K V} {i : ℕ} {k : K} (h : p.fills = some (i, k)) :
    ∃ c, p.held = some (i, c) := by
  cases p <;> cases h <;> exact ⟨_, rfl⟩

theorem Pc.fills_of_held {p : Pc K V} {i : ℕ} {c : Claim K V} (h : p.held = some (i, c))
    (hc : c = .change ∨ ∃ e, c = .changed e) : ∃ k, p.fills = some (i, k) := by
  rcases hc with rfl | ⟨e, rfl⟩ <;> cases p <;> cases h <;> exact ⟨_, rfl⟩

/-- Slot `i` will hold an entry with the key `k`, or holds one that will stay. -/
def Committed (h : History K V) (s : State K V) (i : ℕ) (k : K) : Prop :=
  (∃ t, (s.pc t).fills = some (i, k)) ∨
    (∀ t k', (s.pc t).fills ≠ some (i, k')) ∧ ∃ v, live h i = some (k, v)

/-- The slot whose state the first pass of an `insert` is about to load or to compare, and
the key it looks for. -/
def Pc.seeks : Pc K V → Option (ℕ × K)
  | .look x i => some (i, x.key)
  | .lock (.update x i _) => some (i, x.key)
  | .cas (.update x i _) _ => some (i, x.key)
  | _ => none

/-- The call has still to load the state of slot `i` for the first time. -/
def Pc.Before (i : ℕ) : Pc K V → Prop
  | .enter _ => True
  | .look _ j => j ≤ i
  | _ => False

/-- An `insert` gets hold of a slot only while every other `insert` of its key in progress
has still to come to this slot. And none comes to a slot which another `insert` of its
key has got hold of, or which is locked although its entry has the key and will stay. -/
structure Apart (h : History K V) (s : State K V) (a : ℕ × Event K V) : Prop where
  gets : ∀ i k, (s.pc a.1).grabs s.mem = some (i, k) → ∀ u q, u ≠ a.1 →
    (s.pc u).pending = some q → q.1 = k → (s.pc u).Before i
  busy : ∀ i k, (s.pc a.1).seeks = some (i, k) → ∀ u, (s.pc u).fills ≠ some (i, k)
  vain : ∀ i k, (s.pc a.1).seeks = some (i, k) → (s.mem.word i).state = .deleting →
    ∀ v, live h i ≠ some (k, v)

/-- An `insert` gets hold of a slot only while no other slot is committed to its key. -/
def Exclusive (cap : ℕ) (h : History K V) (s : State K V) (a : ℕ × Event K V) : Prop :=
  ∀ i k, (s.pc a.1).grabs s.mem = some (i, k) → ∀ j, j < cap → Committed h s j k → j = i

variable {cap : ℕ} {h : History K V} {s : State K V} {m m' : Mem K V} {p p' : Pc K V} {t : ℕ}
  {a : Event K V}

/-- How an access changes which slot its thread has got hold of. -/
inductive Filling (m : Mem K V) (p p' : Pc K V) (a : Event K V) : Prop
  | same (hfills : p'.fills = p.fills) (hevent : ∀ i q, a ≠ .stored i q)
  | grabbed (i : ℕ) (k : K) (hgrabs : p.grabs m = some (i, k)) (hfills : p'.fills = some (i, k))
      (hevent : ∀ i q, a ≠ .stored i q)
  | stored (i : ℕ) (q : K × V) (hfills : p.fills = some (i, q.1)) (hnone : p'.fills = none)
      (hevent : a = .stored i q)

theorem Filling.silent (hfills : p'.fills = p.fills) : Filling m p p' .silent :=
  .same hfills (by simp)

theorem Onward.filling {o : Option (K × V)} {r : Pc K V × Event K V} (honward : Onward cap o r)
    (hfills : p.fills = none) : Filling m p r.1 r.2 := by
  cases honward <;> exact .same hfills.symm (by simp)

/-- Locking a slot for an update gets hold of it if it has the right version. -/
theorem Job.locked_filling {j : Job K V} {current : Word} (hcurrent : m.word j.slot = current)
    (ha : ∀ i q, a ≠ .stored i q) :
    Filling m (.cas j current) (j.locked current.version) a := by
  unfold locked
  split
  case isTrue hversion =>
    cases j with
    | update x i version =>
        exact .grabbed i x.key (if_pos ⟨hcurrent, hversion⟩) rfl ha
    | pop retries c => exact .same rfl ha
    | clear i version => exact .same rfl ha
  case isFalse => exact .same rfl ha

variable [LinearOrder K]

theorem tick_filling (hbound : p.Bounded cap) :
    Filling m p (tick cap m p).2.1 (tick cap m p).2.2 := by
  cases p with
  | idle => exact .silent rfl
  | enter c =>
      cases c with
      | insert key value => exact (insertFirst_onward key value _).filling rfl
      | popFirst => exact (popRetry_onward 16).filling rfl
      | clear => exact sweepFrom_onward.filling rfl
  | look x i =>
      simp only [tick]
      split
      · exact .silent rfl
      · exact (lookNext_onward hbound).filling rfl
  | peek x i version =>
      simp only [tick]
      split
      · split
        · exact .silent rfl
        · exact (lookNext_onward hbound).filling rfl
      · exact (lookNext_onward hbound).filling rfl
  | lock j =>
      simp only [tick]
      split
      · exact .silent rfl
      · exact (j.refused_onward hbound).filling rfl
  | cas j current =>
      simp only [tick]
      split
      case isTrue hcurrent =>
        refine Job.locked_filling hcurrent fun i q ha => ?_
        split at ha <;> cases ha
      case isFalse => exact (j.refused_onward hbound.1).filling rfl
  | fetch x i =>
      simp only [tick]
      split <;> exact .silent rfl
  | rewrite x i v => exact .silent rfl
  | republish x i v => exact .stored i x.entry.pair rfl rfl rfl
  | updated x v => exact .same rfl (by simp [tick])
  | claim x i =>
      simp only [tick]
      split
      case isTrue hfree => exact .grabbed i x.key (if_pos hfree) rfl (by simp)
      case isFalse => exact (claimNext_onward hbound).filling rfl
  | write x i => exact .silent rfl
  | publish x i => exact .stored i x.entry.pair rfl rfl rfl
  | count x => exact .same rfl (by simp [tick])
  | scan retries i cs =>
      simp only [tick]
      split
      · exact .silent rfl
      · exact (scanFrom_onward hbound.2).filling rfl
  | check retries i version cs =>
      simp only [tick]
      split
      · split
        · exact .silent rfl
        · exact (scanFrom_onward hbound.2).filling rfl
      · exact (scanFrom_onward hbound.2).filling rfl
  | recheck retries i version cs =>
      simp only [tick]
      split
      · exact .silent rfl
      · exact (scanFrom_onward hbound.2).filling rfl
  | copy retries i version cs =>
      simp only [tick]
      split
      · refine (scanFrom_onward ?_).filling rfl
        exact candidates_bounded hbound.2 hbound.1
      · exact (scanFrom_onward hbound.2).filling rfl
  | verify retries c =>
      simp only [tick]
      split
      · split <;> exact .silent rfl
      · exact .silent rfl
  | restore j lockedVersion => exact (j.restored_onward hbound).filling rfl
  | vacate i x => exact .same rfl (by simp [tick])
  | uncount x =>
      cases x with
      | pop p => exact .same rfl (by simp [tick])
      | clear i => exact sweepFrom_onward.filling rfl
  | sweep i =>
      simp only [tick]
      split
      · exact .silent rfl
      · exact sweepFrom_onward.filling rfl

omit [LinearOrder K] in
/-- A pair of the map was there before the step, or is stored by it. -/
theorem live_step {i : ℕ} {q : K × V} (hq : live ((t, a) :: h) i = some q) :
    live h i = some q ∨ a = .stored i q := by
  cases a with
  | stored j p =>
      rw [live_stored] at hq
      by_cases hij : i = j
      · subst hij
        rw [Function.update_self, Option.some.injEq] at hq
        exact .inr (by rw [hq])
      · rw [Function.update_of_ne hij] at hq
        exact .inl hq
  | took j =>
      rw [live_took] at hq
      by_cases hij : i = j
      · subst hij
        rw [Function.update_self] at hq
        cases hq
      · rw [Function.update_of_ne hij] at hq
        exact .inl hq
  | _ => exact .inl hq

omit [LinearOrder K] in
/-- A slot becomes committed to a key only by an `insert` that gets hold of it. -/
theorem Filling.committed {i : ℕ} {k : K} (hfilling : Filling s.mem (s.pc t) p' a)
    (hcommitted : Committed ((t, a) :: h) ⟨m', Function.update s.pc t p'⟩ i k) :
    Committed h s i k ∨ (s.pc t).grabs s.mem = some (i, k) := by
  rcases hcommitted with ⟨u, hu⟩ | ⟨hnone, v, hlive⟩
  · by_cases hut : u = t
    · subst hut
      simp only [Function.update_self] at hu
      cases hfilling with
      | same hfills _ => exact .inl (.inl ⟨u, hfills ▸ hu⟩)
      | grabbed j k' hgrabs hfills _ =>
          rw [hfills] at hu
          exact .inr (hgrabs.trans hu)
      | stored j q _ hfills _ =>
          rw [hfills] at hu
          cases hu
    · exact .inl (.inl ⟨u, by simpa [hut] using hu⟩)
  · rcases live_step hlive with hold | rfl
    · by_cases hfill : ∃ u k', (s.pc u).fills = some (i, k')
      · obtain ⟨u, k', hu⟩ := hfill
        by_cases hut : u = t
        · subst hut
          cases hfilling with
          | same hfills _ => exact absurd (by simpa [hfills] using hu) (hnone u k')
          | grabbed j k'' hgrabs _ _ =>
              rw [Pc.fills_of_grabs hgrabs] at hu
              cases hu
          | stored j q hfills _ hevent =>
              -- the pair that is stored is the one the slot was committed to
              obtain ⟨rfl, rfl⟩ := Prod.mk.inj (Option.some.inj (hu.symm.trans hfills))
              rw [hevent, live_stored, Function.update_self, Option.some.injEq] at hlive
              exact .inl (.inl ⟨u, by rw [hu, hlive]⟩)
        · exact absurd (by simpa [hut] using hu) (hnone u k')
      · push Not at hfill
        exact .inl (.inr ⟨hfill, v, hold⟩)
    · cases hfilling with
      | same _ hevent => exact absurd rfl (hevent i (k, v))
      | grabbed j k' _ _ hevent => exact absurd rfl (hevent i (k, v))
      | stored j q hfills _ hevent =>
          cases hevent
          exact .inl (.inl ⟨t, hfills⟩)

/-- No two slots are committed to one key. -/
def Unique (cap : ℕ) (h : History K V) (s : State K V) : Prop :=
  ∀ i j k, i < cap → j < cap → Committed h s i k → Committed h s j k → i = j

theorem Unique.tick (hunique : Unique cap h s) (hinv : Inv cap h s)
    (hguard : Exclusive cap h s (t, (BTreeMap.tick cap s.mem (s.pc t)).2.2)) :
    Unique cap ((t, (BTreeMap.tick cap s.mem (s.pc t)).2.2) :: h)
      ⟨(BTreeMap.tick cap s.mem (s.pc t)).1,
        Function.update s.pc t (BTreeMap.tick cap s.mem (s.pc t)).2.1⟩ := by
  have hfilling := tick_filling (m := s.mem) (hinv.bounded t)
  intro i j k hi hj hci hcj
  rcases hfilling.committed hci with hci | hgi <;> rcases hfilling.committed hcj with hcj | hgj
  · exact hunique i j k hi hj hci hcj
  · exact hguard j k hgj i hi hci
  · exact (hguard i k hgi j hj hcj).symm
  · exact (Prod.mk.inj (Option.some.inj (hgi.symm.trans hgj))).1

/-- A valid slot is committed to the key of its entry. -/
theorem Inv.valid_committed (hinv : Inv cap h s) {i : ℕ} {e : Entry K V} (hi : i < cap)
    (hw : (s.mem.word i).state = .valid) (he : s.mem.entry i = some e) :
    Committed h s i e.key := by
  obtain ⟨e', -, he', -, hlive⟩ := hinv.valid hi hw
  rw [he, Option.some.injEq] at he'
  subst he'
  refine .inr ⟨fun t k' hfills => ?_, e.value, hlive⟩
  have hfree := hinv.not_claimed (i := i) (by rw [hw]; simp) (by rw [hw]; simp) t
  obtain ⟨c, hc⟩ := Pc.held_of_fills hfills
  exact hfree c hc

/-- A slot that is committed to a key, but not by an `insert` in progress, holds an entry
with this key, and it is valid or locked. -/
theorem Inv.committed_entry (hinv : Inv cap h s) {i : ℕ} {k : K} (hi : i < cap)
    (hcommitted : Committed h s i k) (hnone : ∀ u, (s.pc u).fills ≠ some (i, k)) :
    ∃ e, s.mem.entry i = some e ∧ e.key = k ∧ live h i = some e.pair ∧
      (s.mem.word i = ⟨e.slotVersion, .valid⟩ ∨ (s.mem.word i).state = .deleting) := by
  rcases hcommitted with ⟨u, hu⟩ | ⟨hfree, v, hlive⟩
  · exact absurd hu (hnone u)
  · by_cases hclaim : ∃ t c, (s.pc t).held = some (i, c)
    · obtain ⟨t, c, hc⟩ := hclaim
      have hfits := (hinv.claimed t i c hc).2
      have hfills := hfree t
      generalize s.mem.word i = w, s.mem.entry i = d, cells h i = p, live h i = l
        at hfits hlive ⊢
      cases hfits with
      | reserve => cases hlive
      | filled => cases hlive
      | change =>
          obtain ⟨k', hk⟩ := Pc.fills_of_held hc (.inl rfl)
          exact absurd hk (hfills k')
      | changed =>
          obtain ⟨k', hk⟩ := Pc.fills_of_held hc (.inr ⟨_, rfl⟩)
          exact absurd hk (hfills k')
      | check hversion =>
          split at hlive
          · cases hlive
          case isFalse hother =>
            rw [Option.some.injEq] at hlive
            exact ⟨_, rfl, congrArg Prod.fst hlive, if_neg hother, .inr rfl⟩
      | keep =>
          rw [Option.some.injEq] at hlive
          exact ⟨_, rfl, congrArg Prod.fst hlive, rfl, .inr rfl⟩
      | drop hpair => cases hlive
    · push Not at hclaim
      have hslot := hinv.unclaimed i hi hclaim
      generalize s.mem.word i = w, s.mem.entry i = d, cells h i = p, live h i = l
        at hslot hlive ⊢
      cases hslot with
      | empty => cases hlive
      | valid =>
          rw [Option.some.injEq] at hlive
          exact ⟨_, rfl, congrArg Prod.fst hlive, rfl, .inl rfl⟩

section Sought

variable {C C' : ℕ → K → Prop} {F F' : ℕ → K → Prop} {d d' : ℕ → Option (Entry K V)}

/-- An `insert` of the key `k` has read the version of slot `i`: none has got hold of the
slot since, so if an entry with this key is in there, it has this version. -/
structure Reads (F : ℕ → K → Prop) (d : ℕ → Option (Entry K V)) (k : K) (i version : ℕ) :
    Prop where
  free : ¬ F i k
  version : ∀ e, d i = some e → e.key = k → e.slotVersion = version

/-- What the lookup of an `insert` says about the slots committed to its key, `C i k` for
such a slot, `F i k` if an `insert` in progress has got hold of it, and `d` for the
entries. -/
def Sought (cap : ℕ) (C F : ℕ → K → Prop) (d : ℕ → Option (Entry K V)) : Pc K V → Prop
  | .look x i => ∀ j, j < i → ¬ C j x.key
  | .peek x i version => (∀ j, j < i → ¬ C j x.key) ∧ Reads F d x.key i version ∧
      ∀ e, d i = some e → e.key = x.key → ∀ j, j < cap → C j x.key → j = i
  | .lock (.update x i version) => Reads F d x.key i version ∧
      ∀ j, j < cap → C j x.key → j = i
  | .cas (.update x i version) current => Reads F d x.key i version ∧
      (∀ j, j < cap → C j x.key → j = i) ∧ (C i x.key → current.version = version)
  | .restore (.update x _ _) _ => ∀ j, j < cap → ¬ C j x.key
  | .claim x _ => ∀ j, j < cap → ¬ C j x.key
  | _ => True

omit [LinearOrder K] in
theorem Reads.mono {k : K} {i version : ℕ} (hreads : Reads F d k i version)
    (hfills : F' i k → F i k) (hentry : ∀ e, d' i = some e → e.key = k → ¬ F i k → d i = some e) :
    Reads F' d' k i version :=
  ⟨fun hf => hreads.free (hfills hf), fun e he hk =>
    hreads.version e (hentry e he hk hreads.free) hk⟩

omit [LinearOrder K] in
/-- What a lookup says stays true while no slot that it is behind is committed to its key. -/
theorem Sought.mono (hsought : Sought cap C F d p)
    (hcommitted : ∀ j q, p.pending = some q → C' j q.1 → C j q.1 ∨ p.Before j)
    (hfills : ∀ j q, p.pending = some q → F' j q.1 → F j q.1 ∨ p.Before j)
    (hentry : ∀ j q e, p.pending = some q → d' j = some e → e.key = q.1 → ¬ F j q.1 →
      d j = some e) : Sought cap C' F' d' p := by
  cases p with
  | look x i =>
      intro j hj hC
      rcases hcommitted j _ rfl hC with hold | hle
      · exact hsought j hj hold
      · exact absurd hj (not_lt.mpr hle)
  | peek x i version =>
      obtain ⟨hbehind, hreads, honly⟩ := hsought
      have hC : ∀ j, C' j x.key → C j x.key := fun j hC => (hcommitted j _ rfl hC).resolve_right id
      refine ⟨fun j hj hc => hbehind j hj (hC j hc), hreads.mono ?_ fun e => hentry i _ e rfl, ?_⟩
      · exact fun hf => (hfills i _ rfl hf).resolve_right id
      · intro e he hk j hj hc
        exact honly e (hentry i _ e rfl he hk hreads.free) hk j hj (hC j hc)
  | lock j =>
      cases j with
      | update x i version =>
          obtain ⟨hreads, honly⟩ := hsought
          refine ⟨hreads.mono ?_ fun e => hentry i _ e rfl, fun j hj hc => honly j hj ?_⟩
          · exact fun hf => (hfills i _ rfl hf).resolve_right id
          · exact (hcommitted j _ rfl hc).resolve_right id
      | pop retries c => exact trivial
      | clear i version => exact trivial
  | cas j current =>
      cases j with
      | update x i version =>
          obtain ⟨hreads, honly, hcurrent⟩ := hsought
          refine ⟨hreads.mono ?_ fun e => hentry i _ e rfl, fun j hj hc => honly j hj ?_,
            fun hc => hcurrent ?_⟩
          · exact fun hf => (hfills i _ rfl hf).resolve_right id
          · exact (hcommitted j _ rfl hc).resolve_right id
          · exact (hcommitted i _ rfl hc).resolve_right id
      | pop retries c => exact trivial
      | clear i version => exact trivial
  | restore j lockedVersion =>
      cases j with
      | update x i version =>
          exact fun j hj hc => hsought j hj ((hcommitted j _ rfl hc).resolve_right id)
      | pop retries c => exact trivial
      | clear i version => exact trivial
  | claim x i => exact fun j hj hc => hsought j hj ((hcommitted j _ rfl hc).resolve_right id)
  | _ => exact trivial

omit [LinearOrder K] in
/-- An `insert` that has got hold of a slot looks nothing up. -/
theorem sought_of_fills {y : ℕ × K} (hfills : p.fills = some y) : Sought cap C F d p := by
  cases p <;> first | exact trivial | cases hfills

omit [LinearOrder K] in
theorem lookNext_sought {x : Ins K V} {i : ℕ} (hbehind : ∀ j, j ≤ i → ¬ C j x.key) :
    Sought cap C F d (lookNext cap x i) := by
  unfold lookNext
  split
  · exact fun j hj => hbehind j (by omega)
  · exact fun j hj => hbehind j (by omega)

omit [LinearOrder K] in
theorem insertRetry_sought (x : Ins K V) : Sought cap C F d (insertRetry x).1 := by
  unfold insertRetry
  split
  · exact trivial
  · exact fun j hj => absurd hj (Nat.not_lt_zero j)

omit [LinearOrder K] in
theorem claimNext_sought {x : Ins K V} (i : ℕ) (hnone : ∀ j, j < cap → ¬ C j x.key) :
    Sought cap C F d (claimNext cap x i).1 := by
  unfold claimNext
  split
  · exact hnone
  · exact insertRetry_sought x

theorem scanFrom_sought (retries i : ℕ) (cs : List (Candidate K V)) :
    Sought cap C F d (scanFrom cap retries i cs).1 := by
  unfold scanFrom
  split
  · exact trivial
  · split <;> exact trivial

theorem popRetry_sought (retries : ℕ) :
    Sought cap C F d (popRetry cap retries : Pc K V × Event K V).1 := by
  cases retries with
  | zero => exact trivial
  | succ retries => exact scanFrom_sought retries 0 []

omit [LinearOrder K] in
theorem sweepFrom_sought (i : ℕ) :
    Sought cap C F d (sweepFrom cap i : Pc K V × Event K V).1 := by
  unfold sweepFrom
  split <;> exact trivial

end Sought

/-- Slot `i` has been got hold of by an `insert` of the key `k`. -/
def Filled (s : State K V) (i : ℕ) (k : K) : Prop :=
  ∃ u, (s.pc u).fills = some (i, k)

/-- Each key is in one slot, and every lookup is right about the slots it is behind. -/
structure Looked (cap : ℕ) (h : History K V) (s : State K V) : Prop where
  unique : Unique cap h s
  sought : ∀ t, Sought cap (Committed h s) (Filled s) s.mem.entry (s.pc t)

/-- The access that gets hold of a slot. -/
theorem tick_grabs {y : ℕ × K} (hgrabs : p.grabs m = some y) :
    (tick cap m p).2.1.fills = some y := by
  cases p with
  | claim x i =>
      simp only [Pc.grabs] at hgrabs
      split at hgrabs
      case isTrue hfree =>
        rw [tick, if_pos hfree]
        exact hgrabs
      case isFalse => cases hgrabs
  | cas j current =>
      cases j with
      | update x i version =>
          simp only [Pc.grabs] at hgrabs
          split at hgrabs
          case isTrue hboth =>
            have hword : m.word (Job.update x i version).slot = current := hboth.1
            have hversion : current.version = (Job.update x i version).version := hboth.2
            rw [tick, if_pos hword, Job.locked, if_pos hversion]
            exact hgrabs
          case isFalse => cases hgrabs
      | pop retries c => cases hgrabs
      | clear i version => cases hgrabs
  | _ => cases hgrabs

/-- An entry is written by the `insert` of its key that has got hold of the slot. -/
theorem tick_entry_key {i : ℕ} {e : Entry K V} (he : (tick cap m p).1.entry i = some e) :
    m.entry i = some e ∨ p.fills = some (i, e.key) := by
  cases p with
  | write x j =>
      by_cases hij : i = j
      · subst hij
        have heq : x.entry = e := by simpa [tick, Mem.setEntry] using he
        exact .inr (heq ▸ rfl)
      · exact .inl (by simpa [tick, Mem.setEntry, hij] using he)
  | rewrite x j v =>
      by_cases hij : i = j
      · subst hij
        have heq : x.entry = e := by simpa [tick, Mem.setEntry] using he
        exact .inr (heq ▸ rfl)
      · exact .inl (by simpa [tick, Mem.setEntry, hij] using he)
  | _ =>
      rw [tick_entry (by simp) (by simp)] at he
      exact .inl he

omit [LinearOrder K] in
/-- An `insert` that gets hold of a slot has found its key in no other. -/
theorem Looked.exclusive (hlooked : Looked cap h s) : Exclusive cap h s (t, a) := by
  intro i k hgrabs j hj hcommitted
  have hsought := hlooked.sought t
  replace hgrabs : (s.pc t).grabs s.mem = some (i, k) := hgrabs
  cases hpc : s.pc t with
  | claim x l =>
      rw [hpc] at hgrabs hsought
      simp only [Pc.grabs] at hgrabs
      split at hgrabs
      · cases hgrabs
        exact absurd hcommitted (hsought j hj)
      · cases hgrabs
  | cas job current =>
      rw [hpc] at hgrabs hsought
      cases job with
      | update x l version =>
          simp only [Pc.grabs] at hgrabs
          split at hgrabs
          · cases hgrabs
            exact hsought.2.1 j hj hcommitted
          · cases hgrabs
      | pop retries c => cases hgrabs
      | clear l version => cases hgrabs
  | _ =>
      rw [hpc] at hgrabs
      cases hgrabs

/-- A slot which is not valid and which nobody has got hold of or locked in vain is not
committed to the key. -/
theorem Inv.uncommitted (hinv : Inv cap h s) {i : ℕ} {k : K} (hi : i < cap)
    (hfree : ∀ u, (s.pc u).fills ≠ some (i, k))
    (hvain : (s.mem.word i).state = .deleting → ∀ v, live h i ≠ some (k, v))
    (hinvalid : ∀ e, s.mem.entry i = some e → e.key = k → s.mem.word i ≠ ⟨e.slotVersion, .valid⟩) :
    ¬ Committed h s i k := by
  intro hcommitted
  obtain ⟨e, he, rfl, hlive, hvalid | hdeleting⟩ := hinv.committed_entry hi hcommitted hfree
  · exact hinvalid e he rfl hvalid
  · exact hvain hdeleting e.value hlive

/-- The next access of a lookup finds out about one more slot. -/
theorem Looked.own (hlooked : Looked cap h s) (hinv : Inv cap h s) (hguard : Apart h s (t, a)) :
    Sought cap (Committed h s) (Filled s) s.mem.entry (tick cap s.mem (s.pc t)).2.1 := by
  have hbound := hinv.bounded t
  have hsought := hlooked.sought t
  have hbusy : ∀ i k, (s.pc t).seeks = some (i, k) → ∀ u, (s.pc u).fills ≠ some (i, k) :=
    hguard.busy
  have hvain : ∀ i k, (s.pc t).seeks = some (i, k) → (s.mem.word i).state = .deleting →
      ∀ v, live h i ≠ some (k, v) := hguard.vain
  cases hpc : s.pc t with
  | look x i =>
      rw [hpc] at hbound hsought hbusy hvain
      simp only [tick]
      split
      case _ version hversion =>
        rw [Mem.getVersionIfValid_eq_some] at hversion
        have hstate : (s.mem.word i).state = .valid := by rw [hversion]
        obtain ⟨e, hword, he, -, -⟩ := hinv.valid hbound hstate
        rw [hversion, Word.mk.injEq] at hword
        refine ⟨hsought, ⟨?_, fun e' he' _ => ?_⟩, fun e' he' hk j hj hc => ?_⟩
        · rintro ⟨u, hu⟩
          exact hbusy i x.key rfl u hu
        · rw [he, Option.some.injEq] at he'
          exact he' ▸ hword.1.symm
        · exact hlooked.unique j i x.key hj hbound hc (hk ▸ hinv.valid_committed hbound hstate he')
      case _ hnone =>
        have hnot : ¬ Committed h s i x.key := by
          refine hinv.uncommitted hbound (hbusy i x.key rfl) (hvain i x.key rfl) ?_
          intro e _ _ hword
          rw [Mem.getVersionIfValid_eq_some.mpr hword] at hnone
          cases hnone
        refine lookNext_sought fun j hj => ?_
        rcases Nat.lt_or_eq_of_le hj with hlt | rfl
        · exact hsought j hlt
        · exact hnot
  | peek x i version =>
      rw [hpc] at hbound hsought
      obtain ⟨hbehind, hreads, honly⟩ := hsought
      -- an entry that is not the one looked for has another key
      have hnext : (∀ e, s.mem.entry i = some e → e.key = x.key → e.slotVersion ≠ version) →
          Sought cap (Committed h s) (Filled s) s.mem.entry (lookNext cap x i) := by
        intro hother
        refine lookNext_sought fun j hj => ?_
        rcases Nat.lt_or_eq_of_le hj with hlt | rfl
        · exact hbehind j hlt
        · intro hcommitted
          obtain ⟨e, he, hk, -⟩ := hinv.committed_entry hbound hcommitted
            fun u hu => hreads.free ⟨u, hu⟩
          exact hother e he hk (hreads.version e he hk)
      simp only [tick]
      split
      case _ e he =>
        split
        case isTrue hmatch => exact ⟨hreads, honly e he hmatch.1⟩
        case isFalse hother =>
          refine hnext fun e' he' hk hversion => ?_
          rw [he, Option.some.injEq] at he'
          subst he'
          exact hother ⟨hk, hversion⟩
      case _ he =>
        refine hnext fun e' he' => ?_
        rw [he] at he'
        cases he'
  | lock j =>
      rw [hpc] at hbound hsought hbusy hvain
      cases j with
      | update x i version =>
          obtain ⟨hreads, honly⟩ := hsought
          simp only [tick]
          split
          case isTrue hstate =>
            refine ⟨hreads, honly, fun hcommitted => ?_⟩
            obtain ⟨e, he, hk, -⟩ := hinv.committed_entry hbound hcommitted (hbusy i x.key rfl)
            obtain ⟨e', hword, he', -, -⟩ := hinv.valid hbound hstate
            rw [he, Option.some.injEq] at he'
            change (s.mem.word i).version = version
            rw [show s.mem.word i = _ from hword, ← he']
            exact hreads.version e he hk
          case isFalse hstate =>
            have hnot : ¬ Committed h s i x.key := by
              refine hinv.uncommitted hbound (hbusy i x.key rfl) (hvain i x.key rfl) ?_
              intro e _ _ hword
              exact hstate (congrArg Word.state hword)
            refine lookNext_sought fun j hj hcommitted => ?_
            have hji := honly j (lt_of_le_of_lt hj hbound) hcommitted
            exact hnot (hji ▸ hcommitted)
      | pop retries c =>
          simp only [tick]
          split
          · exact trivial
          · exact popRetry_sought retries
      | clear i version =>
          simp only [tick]
          split
          · exact trivial
          · exact sweepFrom_sought (i + 1)
  | cas j current =>
      rw [hpc] at hbound hsought hbusy hvain
      cases j with
      | update x i version =>
          obtain ⟨hreads, honly, hcurrent⟩ := hsought
          simp only [tick]
          split
          · unfold Job.locked
            split
            · exact trivial
            case isFalse hother =>
              intro j hj hcommitted
              have hji := honly j hj hcommitted
              exact hother (hcurrent (hji ▸ hcommitted))
          case isFalse hother =>
            have hnot : ¬ Committed h s i x.key := by
              intro hcommitted
              have hversion := hcurrent hcommitted
              refine hinv.uncommitted hbound.1 (hbusy i x.key rfl) (hvain i x.key rfl) ?_
                hcommitted
              intro e he hk hword
              refine hother ?_
              rw [show s.mem.word _ = _ from hword, hreads.version e he hk, ← hversion,
                ← hbound.2]
            refine lookNext_sought fun j hj hcommitted => ?_
            have hji := honly j (lt_of_le_of_lt hj hbound.1) hcommitted
            exact hnot (hji ▸ hcommitted)
      | pop retries c =>
          simp only [tick]
          split
          · unfold Job.locked
            split <;> exact trivial
          · exact popRetry_sought retries
      | clear i version =>
          simp only [tick]
          split
          · unfold Job.locked
            split <;> exact trivial
          · exact sweepFrom_sought (i + 1)
  | restore j lockedVersion =>
      rw [hpc] at hsought
      cases j with
      | update x i version => exact hsought
      | pop retries c => exact popRetry_sought retries
      | clear i version => exact sweepFrom_sought (i + 1)
  | claim x i =>
      rw [hpc] at hsought
      simp only [tick]
      split
      · exact trivial
      · exact claimNext_sought i hsought
  | enter c =>
      cases c with
      | insert key value => exact insertRetry_sought _
      | popFirst => exact popRetry_sought 16
      | clear => exact sweepFrom_sought 0
  | scan retries i cs =>
      simp only [tick]
      split
      · exact trivial
      · exact scanFrom_sought _ _ _
  | check retries i version cs =>
      simp only [tick]
      split
      · split
        · exact trivial
        · exact scanFrom_sought _ _ _
      · exact scanFrom_sought _ _ _
  | recheck retries i version cs =>
      simp only [tick]
      split
      · exact trivial
      · exact scanFrom_sought _ _ _
  | copy retries i version cs =>
      simp only [tick]
      split <;> exact scanFrom_sought _ _ _
  | verify retries c =>
      simp only [tick]
      split
      · split <;> exact trivial
      · exact trivial
  | fetch x i =>
      simp only [tick]
      split <;> exact trivial
  | uncount x =>
      cases x with
      | pop q => exact trivial
      | clear i => exact sweepFrom_sought (i + 1)
  | sweep i =>
      simp only [tick]
      split
      · exact trivial
      · exact sweepFrom_sought (i + 1)
  | _ => exact trivial

omit [LinearOrder K] in
/-- A slot that an `insert` has got hold of after a step it had got hold of before, or it
gets hold of it by the step. -/
theorem Filling.filled {i : ℕ} {k : K} (hfilling : Filling s.mem (s.pc t) p' a)
    (hfilled : Filled ⟨m', Function.update s.pc t p'⟩ i k) :
    Filled s i k ∨ (s.pc t).grabs s.mem = some (i, k) := by
  obtain ⟨u, hu⟩ := hfilled
  by_cases hut : u = t
  · subst hut
    simp only [Function.update_self] at hu
    cases hfilling with
    | same hfills _ => exact .inl ⟨u, hfills ▸ hu⟩
    | grabbed j k' hgrabs hfills _ =>
        rw [hfills] at hu
        exact .inr (hgrabs.trans hu)
    | stored j q _ hfills _ =>
        rw [hfills] at hu
        cases hu
  · simp only [Function.update_of_ne hut] at hu
    exact .inl ⟨u, hu⟩

theorem Looked.tick (hlooked : Looked cap h s) (hinv : Inv cap h s)
    (hguard : Apart h s (t, (BTreeMap.tick cap s.mem (s.pc t)).2.2)) :
    Looked cap ((t, (BTreeMap.tick cap s.mem (s.pc t)).2.2) :: h)
      ⟨(BTreeMap.tick cap s.mem (s.pc t)).1,
        Function.update s.pc t (BTreeMap.tick cap s.mem (s.pc t)).2.1⟩ := by
  have hfilling := tick_filling (m := s.mem) (hinv.bounded t)
  have hown := hlooked.own hinv hguard
  have hgrabs : ∀ y, (s.pc t).grabs s.mem = some y →
      (BTreeMap.tick cap s.mem (s.pc t)).2.1.fills = some y := fun _ => tick_grabs
  have hgets : ∀ i k, (s.pc t).grabs s.mem = some (i, k) → ∀ u q, u ≠ t →
      (s.pc u).pending = some q → q.1 = k → (s.pc u).Before i := hguard.gets
  -- only an `insert` that has got hold of the slot writes its key there
  have hentry : ∀ i e, (BTreeMap.tick cap s.mem (s.pc t)).1.entry i = some e →
      ¬ Filled s i e.key → s.mem.entry i = some e :=
    fun i e he hnot => (tick_entry_key he).resolve_right fun hfills => hnot ⟨t, hfills⟩
  refine ⟨hlooked.unique.tick hinv hlooked.exclusive, fun u => ?_⟩
  by_cases hut : u = t
  · subst hut
    simp only [Function.update_self]
    cases hg : (s.pc u).grabs s.mem with
    | some y => exact sought_of_fills (hgrabs y hg)
    | none =>
        refine hown.mono (fun j q _ hc => .inl ?_) (fun j q _ hf => .inl ?_) ?_
        · exact (hfilling.committed hc).resolve_right fun hgrab => by simp [hg] at hgrab
        · exact (hfilling.filled hf).resolve_right fun hgrab => by simp [hg] at hgrab
        · exact fun j q e _ he hk hnot => hentry j e he (hk ▸ hnot)
  · simp only [Function.update_of_ne hut]
    refine (hlooked.sought u).mono (fun j q hq hc => ?_) (fun j q hq hf => ?_) ?_
    · exact (hfilling.committed hc).imp_right fun hgrab => hgets j q.1 hgrab u q hut hq rfl
    · exact (hfilling.filled hf).imp_right fun hgrab => hgets j q.1 hgrab u q hut hq rfl
    · exact fun j q e _ he hk hnot => hentry j e he (hk ▸ hnot)

omit [LinearOrder K] in
theorem Looked.call {c : Call K V} (hlooked : Looked cap h s) (hidle : s.pc t = .idle) :
    Looked cap ((t, .call c) :: h) ⟨s.mem, Function.update s.pc t (.enter c)⟩ := by
  have hfilling : Filling s.mem (s.pc t) (.enter c) (.call c) :=
    .same (by rw [hidle]; rfl) (by simp)
  have hnot : ∀ i k, (s.pc t).grabs s.mem ≠ some (i, k) := by
    intro i k hgrabs
    rw [hidle] at hgrabs
    cases hgrabs
  have hcommitted : ∀ i k, Committed ((t, .call c) :: h)
      ⟨s.mem, Function.update s.pc t (.enter c)⟩ i k → Committed h s i k :=
    fun i k hc => (hfilling.committed hc).resolve_right (hnot i k)
  refine ⟨fun i j k hi hj hci hcj => ?_, fun u => ?_⟩
  · exact hlooked.unique i j k hi hj (hcommitted i k hci) (hcommitted j k hcj)
  · by_cases hut : u = t
    · subst hut
      simp only [Function.update_self]
      exact trivial
    · simp only [Function.update_of_ne hut]
      refine (hlooked.sought u).mono (fun j q _ hc => .inl (hcommitted j q.1 hc))
        (fun j q _ hf => .inl ?_) fun j q e _ he _ _ => he
      exact (hfilling.filled hf).resolve_right (hnot j q.1)

theorem Looked.of_run (hrun : (machine K V cap).RunOf Apart h s) : Looked cap h s := by
  refine hrun.invariant ?_ ?_
  · rintro _ rfl
    refine ⟨fun i j k _ _ hci => ?_, fun t => trivial⟩
    rcases hci with ⟨t, ht⟩ | ⟨-, v, hlive⟩
    · cases ht
    · cases hlive
  · intro h s a s' hprev hlooked hguard hstep
    cases hstep with
    | call hidle => exact hlooked.call hidle
    | tick _ => exact hlooked.tick (Inv.of_run hprev) hguard

/-- While each `insert` gets hold of a slot that every other one of its key has still to
come to, and comes itself to no slot of its key that is locked in vain or that another
`insert` has got hold of, no two valid slots hold equal keys. -/
theorem keys_unique (hrun : (machine K V cap).RunOf Apart h s) :
    ∀ i j e e', i < cap → j < cap → (s.mem.word i).state = .valid →
      (s.mem.word j).state = .valid → s.mem.entry i = some e → s.mem.entry j = some e' →
      e.key = e'.key → i = j := by
  intro i j e e' hi hj hwi hwj he he' hkey
  have hinv := Inv.of_run hrun
  have hcj := hinv.valid_committed hj hwj he'
  rw [← hkey] at hcj
  exact (Looked.of_run hrun).unique i j e.key hi hj (hinv.valid_committed hi hwi he) hcj

instance Pc.Before.decidable (i : ℕ) (p : Pc K V) : Decidable (p.Before i) :=
  match p with
  | .enter _ => .isTrue trivial
  | .look _ j => inferInstanceAs (Decidable (j ≤ i))
  | .idle | .peek _ _ _ | .lock _ | .cas _ _ | .fetch _ _ | .rewrite _ _ _ | .republish _ _ _
  | .updated _ _ | .claim _ _ | .write _ _ | .publish _ _ | .count _ | .scan _ _ _
  | .check _ _ _ _ | .recheck _ _ _ _ | .copy _ _ _ _ | .verify _ _ | .restore _ _
  | .vacate _ _ | .uncount _ | .sweep _ => .isFalse id

/-- The step is one of a thread below `n`, and among these threads it keeps the inserts of
one key apart. -/
def ApartAmong (n : ℕ) (h : History K V) (s : State K V) (a : ℕ × Event K V) : Prop :=
  a.1 < n ∧
    (∀ y ∈ (s.pc a.1).grabs s.mem, ∀ u, u < n → u ≠ a.1 →
      ∀ q ∈ (s.pc u).pending, q.1 = y.2 → (s.pc u).Before y.1) ∧
    ∀ y ∈ (s.pc a.1).seeks, (∀ u, u < n → (s.pc u).fills ≠ some y) ∧
      ((s.mem.word y.1).state = .deleting → ∀ q ∈ live h y.1, q.1 ≠ y.2)

instance (n : ℕ) (h : History K V) (s : State K V) (a : ℕ × Event K V) :
    Decidable (ApartAmong n h s a) :=
  inferInstanceAs (Decidable (_ ∧ _ ∧ _))

theorem ApartAmong.apart {n : ℕ} (hrun : (machine K V cap).RunOf (ApartAmong n) h s) :
    (machine K V cap).RunOf Apart h s := by
  refine hrun.upgrade fun h s a s' hprev _ hamong _ => ?_
  have hidle : ∀ u, n ≤ u → s.pc u = .idle := by
    intro u hu
    refine idle_of_untouched hprev fun a ha => ?_
    have hlt := hprev.all_labels (fun _ _ _ hg => hg.1) a ha
    exact (lt_of_lt_of_le hlt hu).ne
  obtain ⟨-, hgets, hmeets⟩ := hamong
  constructor
  case gets =>
    intro i k hgrabs u q hne hq hk
    rcases lt_or_ge u n with hlt | hge
    · exact hgets (i, k) hgrabs u hlt hne q hq hk
    · rw [hidle u hge] at hq
      cases hq
  case busy =>
    intro i k hseeks u hu
    rcases lt_or_ge u n with hlt | hge
    · exact (hmeets (i, k) hseeks).1 u hlt hu
    · rw [hidle u hge] at hu
      cases hu
  case vain =>
    intro i k hseeks hdeleting v hlive
    exact (hmeets (i, k) hseeks).2 hdeleting (k, v) hlive rfl

/-- Thread `1` begins to insert a key before thread `0` claims a slot for the same key, and
comes to this slot after thread `0` has published its entry. Meanwhile thread `2` looks
for the least entry. -/
def insertsCross : List (Choice ℕ ℕ) :=
  .invoke 2 (.insert 3 30) :: goes 2 7 ++ .invoke 0 (.insert 5 50) :: goes 0 4 ++
    .invoke 1 (.insert 5 60) :: goes 1 1 ++ .invoke 2 .popFirst :: goes 2 5 ++
    goes 0 3 ++ goes 1 2 ++ goes 0 2 ++ goes 1 8 ++ goes 2 9

/-- Two inserts of one key and a `pop_first` overlap: the later one of the inserts updates
the entry of the other. -/
theorem keys_unique_cross : ∃ (h : History ℕ ℕ) (s : State ℕ ℕ),
    (machine ℕ ℕ 2).RunOf Apart h s ∧
      (1, .ret (.inserted 5 60 (some (some 50)))) ∈ h ∧ (2, .ret (.popped (some (3, 30)))) ∈ h ∧
      ∀ i j e e', i < 2 → j < 2 → (s.mem.word i).state = .valid →
        (s.mem.word j).state = .valid → s.mem.entry i = some e → s.mem.entry j = some e' →
        e.key = e'.key → i = j := by
  let r := (playAll 2 (ApartAmong (K := ℕ) (V := ℕ) 3) insertsCross).get (by decide +kernel)
  have hrun : (machine ℕ ℕ 2).RunOf (ApartAmong 3) r.1 r.2 := playAll_run (Option.some_get _).symm
  have hupdate : (1, .ret (.inserted 5 60 (some (some 50)))) ∈ r.1 := by decide +kernel
  have hpop : (2, .ret (.popped (some (3, 30)))) ∈ r.1 := by decide +kernel
  have hapart := ApartAmong.apart hrun
  generalize r.1 = h, r.2 = s at hapart hupdate hpop
  exact ⟨h, s, hapart, hupdate, hpop, keys_unique hapart⟩

/-- Two threads look the key up at the same time, and then each claims a slot for it. -/
def twoInserts : List (Choice ℕ ℕ) :=
  .invoke 0 (.insert 5 50) :: goes 0 3 ++ .invoke 1 (.insert 5 60) :: goes 1 3 ++
    goes 0 4 ++ goes 1 5

/-- Both slots end up valid with the same key. -/
theorem keys_doubled : ∃ (h : History ℕ ℕ) (s : State ℕ ℕ),
    (machine ℕ ℕ 2).Run h s ∧ (∀ a ∈ h, a.2 ≠ .call .clear) ∧ (∀ t, s.pc t = .idle) ∧
      (s.mem.word 0).state = .valid ∧ (s.mem.word 1).state = .valid ∧
      (s.mem.entry 0).map Entry.key = some 5 ∧ (s.mem.entry 1).map Entry.key = some 5 := by
  let r := (playAll 2 (fun (_ : History ℕ ℕ) _ _ => True) twoInserts).get (by decide)
  have hrun : (machine ℕ ℕ 2).Run r.1 r.2 := playAll_run (Option.some_get _).symm
  have hlabels : ∀ a ∈ r.1, a.1 = 0 ∨ a.1 = 1 := by decide
  refine ⟨r.1, r.2, hrun, by decide, fun t => ?_, by decide, by decide, by decide, by decide⟩
  by_cases h0 : t = 0
  · rw [h0]
    decide
  · by_cases h1 : t = 1
    · rw [h1]
      decide
    · refine idle_of_untouched hrun fun a ha heq => ?_
      rcases hlabels a ha with h | h
      · exact h0 (heq.symm.trans h)
      · exact h1 (heq.symm.trans h)

end BTreeMap
