import Vsched.Foundation.Ranked
import Vsched.Map.Account

/-!
# Every call on the lock-free map comes to an end

A thread inside a call has a rank: the accesses it makes at most before it
returns. The attempts of `insert` and of `pop_first` are counted, each of them
goes over the slots in order, and what is not given up in an attempt is brought to
an end within a few accesses. So the rank falls with every access of the thread
and nothing that another thread does can raise it: the map is free of waiting.
-/

namespace BTreeMap

variable {K V : Type*}

/-- The accesses of one attempt of `insert`. -/
def attempt (cap : ℕ) : ℕ := 5 * cap + 1

/-- The accesses of one attempt of `pop_first`. -/
def pass (cap : ℕ) : ℕ := 4 * cap + 5

namespace Ins

variable (cap : ℕ) (x : Ins K V)

/-- What the attempts still left take. -/
def left : ℕ := x.retries * attempt cap

end Ins

/-- The accesses a call makes at most. -/
def Call.limit (cap : ℕ) : Call K V → ℕ
  | .insert _ _ => cap * attempt cap + 5
  | .popFirst => 16 * pass cap + 1
  | .clear => 5 * cap + 1

/-- The accesses a thread still makes at most before it has returned. -/
@[simp] def Pc.rank (cap : ℕ) : Pc K V → ℕ
  | .idle => 0
  | .enter c => c.limit cap
  | .look x i => x.left cap + 4 * (cap - i) + cap + 5
  | .peek x i _ => x.left cap + 4 * (cap - i) + cap + 4
  | .lock (.update x i _) => x.left cap + 4 * (cap - i) + cap + 3
  | .lock (.pop retries _) => retries * pass cap + 5
  | .lock (.clear i _) => 5 * (cap - (i + 1)) + 4
  | .cas (.update x i _) _ => x.left cap + 4 * (cap - i) + cap + 2
  | .cas (.pop retries _) _ => retries * pass cap + 4
  | .cas (.clear i _) _ => 5 * (cap - (i + 1)) + 3
  | .fetch _ _ => 4
  | .rewrite _ _ _ => 3
  | .republish _ _ _ => 2
  | .updated _ _ => 1
  | .claim x i => x.left cap + (cap - i) + 4
  | .write _ _ => 3
  | .publish _ _ => 2
  | .count _ => 1
  | .scan retries i _ => retries * pass cap + 4 * (cap - i) + 5
  | .check retries i _ _ => retries * pass cap + 4 * (cap - i) + 4
  | .recheck retries i _ _ => retries * pass cap + 4 * (cap - i) + 3
  | .copy retries i _ _ => retries * pass cap + 4 * (cap - i) + 2
  | .verify retries _ => retries * pass cap + 3
  | .restore (.update x _ _) _ => x.left cap + cap + 5
  | .restore (.pop retries _) _ => retries * pass cap + 1
  | .restore (.clear i _) _ => 5 * (cap - (i + 1)) + 1
  | .vacate _ (.pop _) => 2
  | .vacate _ (.clear i) => 5 * (cap - (i + 1)) + 2
  | .uncount (.pop _) => 1
  | .uncount (.clear i) => 5 * (cap - (i + 1)) + 1
  | .sweep i => 5 * (cap - (i + 1)) + 5

variable {cap i : ℕ} {m : Mem K V}

theorem lookNext_rank {x : Ins K V} (hi : i < cap) :
    (lookNext cap x i).rank cap < x.left cap + 4 * (cap - i) + cap + 2 := by
  unfold lookNext
  split
  · simp only [Pc.rank]
    omega
  · simp only [Pc.rank]
    omega

/-- The next attempt costs less than the one given up. -/
theorem insertRetry_rank (x : Ins K V) :
    (insertRetry x).1.rank cap ≤ x.left cap + 4 := by
  unfold insertRetry
  split
  · exact Nat.zero_le _
  case _ retries hretries =>
    have hleft : x.left cap = retries * attempt cap + (5 * cap + 1) := by
      rw [Ins.left, hretries, Nat.succ_mul]
      rfl
    rw [hleft]
    simp only [Pc.rank, Ins.left, Nat.sub_zero]
    omega

theorem claimNext_rank {x : Ins K V} (hi : i < cap) :
    (claimNext cap x i).1.rank cap < x.left cap + (cap - i) + 4 := by
  unfold claimNext
  split
  · simp only [Pc.rank]
    omega
  · have hretry : (insertRetry x).1.rank cap ≤ x.left cap + 4 := insertRetry_rank x
    omega

theorem sweepFrom_rank : (sweepFrom cap i : Pc K V × Event K V).1.rank cap ≤ 5 * (cap - i) := by
  unfold sweepFrom
  split
  · simp only [Pc.rank]
    omega
  · exact Nat.zero_le _

section Order

variable [LinearOrder K]

theorem scanFrom_rank {retries : ℕ} {cs : List (Candidate K V)} :
    (scanFrom cap retries i cs).1.rank cap ≤ retries * pass cap + 4 * (cap - i) + 5 := by
  unfold scanFrom
  split
  · exact le_refl _
  · split
    · exact Nat.zero_le _
    · simp only [Pc.rank]
      omega

theorem scanNext_rank {retries : ℕ} {cs : List (Candidate K V)} (hi : i < cap) :
    (scanFrom cap retries (i + 1) cs).1.rank cap < retries * pass cap + 4 * (cap - i) + 2 := by
  refine lt_of_le_of_lt scanFrom_rank ?_
  omega

theorem popRetry_rank (retries : ℕ) :
    (popRetry cap retries : Pc K V × Event K V).1.rank cap ≤ retries * pass cap := by
  cases retries with
  | zero => exact Nat.zero_le _
  | succ retries =>
      have hscan : (scanFrom cap retries 0 [] : Pc K V × Event K V).1.rank cap ≤
          retries * pass cap + 4 * (cap - 0) + 5 := scanFrom_rank
      rw [popRetry, Nat.succ_mul]
      calc _ ≤ _ := hscan
        _ = retries * pass cap + pass cap := by
          rw [pass]
          omega

/-- A slot that has not been locked. -/
theorem Job.refused_rank {j : Job K V} (hj : j.slot < cap) (current : Word) :
    (j.refused cap).1.rank cap < (Pc.cas j current).rank cap := by
  cases j with
  | update x i version => exact lookNext_rank hj
  | pop retries c =>
      refine lt_of_le_of_lt (popRetry_rank retries) ?_
      simp only [Pc.rank]
      omega
  | clear i version =>
      refine lt_of_le_of_lt sweepFrom_rank ?_
      simp only [Pc.rank]
      omega

omit [LinearOrder K] in
theorem Job.locked_rank {j : Job K V} (hj : j.slot < cap) (current : Word) :
    (j.locked current.version).rank cap < (Pc.cas j current).rank cap := by
  unfold Job.locked
  cases j with
  | update x i version =>
      have hi : i < cap := hj
      split <;> simp only [Pc.rank] <;> omega
  | pop retries c => split <;> simp only [Pc.rank] <;> omega
  | clear i version => split <;> simp only [Pc.rank] <;> omega

theorem Job.restored_rank (j : Job K V) (version : ℕ) :
    (j.restored cap).1.rank cap < (Pc.restore j version).rank cap := by
  cases j with
  | update x i version =>
      simp only [Job.restored, Pc.rank]
      omega
  | pop retries c => exact Nat.lt_succ_of_le (popRetry_rank retries)
  | clear i version => exact Nat.lt_succ_of_le sweepFrom_rank

/-- Each access brings the call nearer to its end. -/
theorem tick_rank {p : Pc K V} (hbound : p.Bounded cap) (hbusy : p ≠ .idle)
    (hfetch : ∀ x i, p = .fetch x i → m.entry i ≠ none) :
    (tick cap m p).2.1.rank cap < p.rank cap := by
  cases p with
  | idle => exact absurd rfl hbusy
  | enter c =>
      cases c with
      | insert key value =>
          exact Nat.lt_succ_of_le
            (insertRetry_rank (⟨key, value, m.globalVersion, cap⟩ : Ins K V))
      | popFirst => exact Nat.lt_succ_of_le (popRetry_rank 16)
      | clear => exact Nat.lt_succ_of_le sweepFrom_rank
  | look x i =>
      simp only [tick]
      split
      · exact Nat.lt_succ_self _
      · refine (lookNext_rank (x := x) hbound).trans ?_
        simp only [Pc.rank]
        omega
  | peek x i version =>
      have hnext : (lookNext cap x i).rank cap < (Pc.peek x i version).rank cap := by
        refine (lookNext_rank (x := x) hbound).trans ?_
        simp only [Pc.rank]
        omega
      simp only [tick]
      split
      · split
        · exact Nat.lt_succ_self _
        · exact hnext
      · exact hnext
  | lock j =>
      have hcas : (Pc.cas j (m.word j.slot)).rank cap < (Pc.lock j).rank cap := by
        cases j <;> exact Nat.lt_succ_self _
      simp only [tick]
      split
      · exact hcas
      · exact (j.refused_rank hbound (m.word j.slot)).trans hcas
  | cas j current =>
      simp only [tick]
      split
      · exact j.locked_rank hbound.1 current
      · exact j.refused_rank hbound.1 current
  | fetch x i =>
      cases he : m.entry i with
      | none => exact absurd he (hfetch x i rfl)
      | some e =>
          simp only [tick, he, Pc.rank]
          omega
  | rewrite x i oldValue => exact Nat.lt_succ_self _
  | republish x i oldValue => exact Nat.lt_succ_self _
  | updated x oldValue => exact Nat.lt_succ_self _
  | claim x i =>
      simp only [tick]
      split
      · simp only [Pc.rank]
        omega
      · exact claimNext_rank hbound
  | write x i => exact Nat.lt_succ_self _
  | publish x i => exact Nat.lt_succ_self _
  | count x => exact Nat.lt_succ_self _
  | scan retries i cs =>
      simp only [tick]
      split
      · exact Nat.lt_succ_self _
      · exact (scanNext_rank hbound.1).trans (by simp only [Pc.rank]; omega)
  | check retries i version cs =>
      have hnext : (scanFrom cap retries (i + 1) cs).1.rank cap <
          (Pc.check retries i version cs).rank cap :=
        (scanNext_rank hbound.1).trans (by simp only [Pc.rank]; omega)
      simp only [tick]
      split
      · split
        · exact Nat.lt_succ_self _
        · exact hnext
      · exact hnext
  | recheck retries i version cs =>
      simp only [tick]
      split
      · exact Nat.lt_succ_self _
      · exact (scanNext_rank hbound.1).trans (by simp only [Pc.rank]; omega)
  | copy retries i version cs =>
      simp only [tick]
      split <;> exact scanNext_rank hbound.1
  | verify retries c =>
      simp only [tick]
      split
      · split <;> simp only [Pc.rank] <;> omega
      · simp only [Pc.rank]
        omega
  | restore j lockedVersion => exact j.restored_rank lockedVersion
  | vacate i x => cases x <;> exact Nat.lt_succ_self _
  | uncount x =>
      cases x with
      | pop p => exact Nat.lt_succ_self _
      | clear j => exact Nat.lt_succ_of_le sweepFrom_rank
  | sweep i =>
      simp only [tick]
      split
      · exact Nat.lt_succ_self _
      · exact lt_of_le_of_lt sweepFrom_rank (by simp only [Pc.rank]; omega)

/-- The call an event enters. -/
def Event.entered : Event K V → Option (Call K V)
  | .call c => some c
  | _ => none

omit [LinearOrder K] in
theorem Pc.rank_eq_zero {p : Pc K V} (hp : p.rank cap = 0) : p = .idle := by
  cases p with
  | idle => rfl
  | enter c => cases c <;> cases hp
  | lock j => cases j <;> cases hp
  | cas j current => cases j <;> cases hp
  | restore j lockedVersion => cases j <;> cases hp
  | vacate i x => cases x <;> cases hp
  | uncount x => cases x <;> cases hp
  | _ => cases hp

variable {h : History K V} {s : State K V} {t : ℕ}

/-- An update reads the old value from a slot that holds one. -/
theorem Inv.fetches (hinv : Inv cap h s) {x : Ins K V} (hpc : s.pc t = .fetch x i) :
    s.mem.entry i ≠ none := by
  have hheld : (s.pc t).held = some (i, .change) := by
    rw [hpc]
    rfl
  obtain ⟨-, e, -, he, -⟩ := (hinv.claimed t i _ hheld).2.of_change
  rw [he]
  exact Option.some_ne_none e

theorem rank_ranks (G : History K V → State K V → ℕ × Event K V → Prop) :
    Labelled.Ranks (machine K V cap) G Event.entered (Call.limit cap)
      fun s t => (s.pc t).rank cap where
  call := by
    intro h s t e s' c _ hstep hcall
    cases hstep with
    | call hidle =>
        cases hcall
        simp [Pc.rank]
    | tick hbusy =>
        have hturn := tick_turn (m := s.mem) ((Inv.of_run ‹_›).bounded t)
        generalize tick cap s.mem (s.pc t) = r at hturn hcall
        cases hr : r.2.2 with
        | call c => exact absurd hr (hturn.not_call c)
        | _ => simp [hr, Event.entered] at hcall
  own := by
    intro h s t e s' hrun hstep hcall
    have hinv := Inv.of_run hrun
    cases hstep with
    | call hidle => cases hcall
    | tick hbusy =>
        simpa using tick_rank (hinv.bounded t) hbusy fun x i hpc => hinv.fetches hpc
  other := by
    intro h s t u e s' _ hstep hne
    cases hstep with
    | call hidle => simp [hne.symm]
    | tick hbusy => simp [hne.symm]

/-- Whatever the other threads do, a call returns within a number of accesses of its own
thread that depends on the capacity only, and its thread never has to wait. -/
theorem calls_end (hrun : (machine K V cap).Run h s) (t : ℕ) :
    (∀ c n, Labelled.ongoing Event.entered h t = some (c, n) →
      n ≤ c.limit cap ∧ (n = c.limit cap → s.pc t = .idle)) ∧
    (s.pc t ≠ .idle → ∃ e s', (machine K V cap).step s (t, e) s') := by
  constructor
  · intro c n hon
    have hbound := (rank_ranks _).bound hrun hon
    refine ⟨by omega, fun hn => ?_⟩
    have hrank : (s.pc t).rank cap = 0 := by omega
    exact Pc.rank_eq_zero hrank
  · intro hbusy
    exact ⟨_, _, .tick hbusy⟩

/-- A `pop_first` returns an entry that another thread has stored meanwhile. -/
theorem calls_end_pop : ∃ (h : History ℕ ℕ) (s : State ℕ ℕ),
    (machine ℕ ℕ 2).Run h s ∧ Labelled.ongoing Event.entered h 1 = some (.popFirst, 14) ∧
      14 ≤ (Call.popFirst : Call ℕ ℕ).limit 2 ∧ s.pc 1 = .idle := by
  let r := (playAll 2 (fun (_ : History ℕ ℕ) _ _ => True)
    (.invoke 0 (.insert 5 50) :: goes 0 7 ++ .invoke 1 .popFirst :: goes 1 3 ++
      .invoke 0 (.insert 3 30) :: goes 0 9 ++ goes 1 11)).get (by decide)
  have hrun : (machine ℕ ℕ 2).Run r.1 r.2 := playAll_run (Option.some_get _).symm
  have hon : Labelled.ongoing Event.entered r.1 1 = some (.popFirst, 14) := by decide
  exact ⟨r.1, r.2, hrun, hon, ((calls_end hrun 1).1 _ _ hon).1, by decide⟩

end Order

end BTreeMap
