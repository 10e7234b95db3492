import Vsched.Map.Reader
import Vsched.Map.Sequential

/-!
# Calls that do not overlap

A call whose accesses nobody else comes between does to the memory, whatever it
holds, what the single-threaded function does, and returns what that returns.
So a run of the machine in which no call is made before the one before it has
returned is a sequence of calls on the single-threaded map, and the pairs in the
slots are those of an ordered map.
-/

namespace BTreeMap

variable {K V : Type*} [LinearOrder K] {cap : ℕ} {m m' : Mem K V} {v : Ret K V}

omit [LinearOrder K] in
theorem tryLockForDelete_entry {i lockedVersion : ℕ} {m₁ : Mem K V}
    (hlock : m.tryLockForDelete i = some (lockedVersion, m₁)) : m₁.entry = m.entry := by
  simp only [Mem.tryLockForDelete, Mem.compareExchange] at hlock
  split at hlock
  · cases hlock
  · cases hlock
    rfl

/-- The thread that has just made the access `r` and is alone from now on returns `v`,
and leaves the memory `m'`. -/
inductive Alone (cap : ℕ) : Mem K V → Pc K V × Event K V → Mem K V → Ret K V → Prop
  | ret {m : Mem K V} {v : Ret K V} : Alone cap m (.idle, .ret v) m v
  | go {m m' : Mem K V} {p : Pc K V} {a : Event K V} {v : Ret K V} :
      p ≠ .idle → (∀ r, a ≠ .ret r) → Alone cap (tick cap m p).1 (tick cap m p).2 m' v →
      Alone cap m (p, a) m' v

/-- What a call does to the single-threaded map. -/
def Call.run (cap : ℕ) (m : Mem K V) : Call K V → Mem K V × Ret K V
  | .insert key value =>
      ((m.insert cap key value).1, .inserted key value (m.insert cap key value).2)
  | .popFirst => ((m.popFirst cap).1, .popped (m.popFirst cap).2)
  | .clear => (m.clear cap, .cleared)

namespace Alone

theorem silent {p : Pc K V} (hp : p ≠ .idle)
    (h : Alone cap (tick cap m p).1 (tick cap m p).2 m' v) : Alone cap m (p, .silent) m' v :=
  .go hp (by simp) h

/-- A thread that has not returned makes its next access. -/
theorem next {p : Pc K V} {a : Event K V} (h : Alone cap m (p, a) m' v) (ha : ∀ r, a ≠ .ret r) :
    p ≠ .idle ∧ Alone cap (tick cap m p).1 (tick cap m p).2 m' v := by
  generalize hr : (p, a) = r at h
  cases h with
  | ret =>
      cases hr
      exact absurd rfl (ha _)
  | go hp _ h =>
      cases hr
      exact ⟨hp, h⟩

section Scan

variable {i retries : ℕ}

/-- A slot of a pass of `pop_first`. -/
theorem scan_slot (hi : i < cap)
    (h : Alone cap m (scanFrom cap retries (i + 1) (Slots.contents (i + 1) m.candidate)) m' v) :
    Alone cap m (scanFrom cap retries i (Slots.contents i m.candidate)) m' v := by
  rw [Slots.contents_succ] at h
  rw [scanFrom, if_pos hi]
  refine .silent (by simp) ?_
  simp only [tick]
  split
  case _ version hversion =>
    refine .silent (by simp) ?_
    simp only [tick]
    split
    case _ e he =>
      split
      case isTrue hsame =>
        refine .silent (by simp) ?_
        simp only [tick, if_pos hversion]
        refine .silent (by simp) ?_
        simp only [tick, he]
        have hcandidate : m.candidate i =
            some ⟨e.key, e.value, e.insertVersion, i, version⟩ := by
          simp only [Mem.candidate, hversion, he]
          rw [if_pos ⟨hsame, trivial⟩]
        rw [hcandidate] at h
        exact h
      case isFalse hother =>
        have hcandidate : m.candidate i = none := by
          simp only [Mem.candidate, hversion, he]
          rw [if_neg fun h => hother h.1]
        rw [hcandidate, Option.toList_none, List.append_nil] at h
        exact h
    case _ hnone =>
      have hcandidate : m.candidate i = none := by simp only [Mem.candidate, hversion, hnone]
      rw [hcandidate, Option.toList_none, List.append_nil] at h
      exact h
  case _ hnone =>
    have hcandidate : m.candidate i = none := by simp only [Mem.candidate, hnone]
    rw [hcandidate, Option.toList_none, List.append_nil] at h
    exact h

/-- A pass of `pop_first` finds the candidates. -/
theorem scan (h : Alone cap m (scanFrom cap retries cap (m.candidates cap)) m' v) :
    Alone cap m (scanFrom cap retries 0 []) m' v := by
  have hfrom : ∀ i, i ≤ cap →
      Alone cap m (scanFrom cap retries i (Slots.contents i m.candidate)) m' v := by
    intro i hi
    induction hi using Nat.decreasingInduction with
    | self => exact h
    | of_succ i hi ih => exact scan_slot hi ih
  exact hfrom 0 (Nat.zero_le cap)

end Scan

/-- `try_lock_for_delete` with nobody else around. -/
theorem lock {j : Job K V}
    (hrefused : m.tryLockForDelete j.slot = none → Alone cap m (j.refused cap) m' v)
    (hlocked : ∀ lockedVersion m₁, m.tryLockForDelete j.slot = some (lockedVersion, m₁) →
      Alone cap m₁ (j.locked lockedVersion, .silent) m' v) :
    Alone cap m (.lock j, .silent) m' v := by
  refine .silent (by simp) ?_
  simp only [tick]
  split
  case isTrue hvalid =>
    have hlock : m.tryLockForDelete j.slot = some ((m.word j.slot).version,
        m.setWord j.slot ⟨(m.word j.slot).version, .deleting⟩) := by
      simp [Mem.tryLockForDelete, Mem.compareExchange, hvalid]
    refine .silent (by simp) ?_
    simp only [tick]
    obtain ⟨hp, h⟩ := (hlocked _ _ hlock).next (by simp)
    refine .go hp (fun r => ?_) h
    split <;> simp
  case isFalse hother =>
    refine hrefused ?_
    simp [Mem.tryLockForDelete, hother]

/-- The attempts of `pop_first`. -/
theorem popRetry (retries : ℕ) (m : Mem K V) : Alone cap m (BTreeMap.popRetry cap retries)
    (popAttempts cap retries m).1 (.popped (popAttempts cap retries m).2) := by
  induction retries generalizing m with
  | zero => exact .ret
  | succ retries ih =>
      refine scan ?_
      rw [scanFrom, if_neg (Nat.lt_irrefl cap)]
      simp only [popAttempts]
      cases hmin : Candidate.findMin (m.candidates cap) with
      | none => exact .ret
      | some c =>
          refine lock (fun hnone => ?_) fun lockedVersion m₁ hlock => ?_
          · have hnone' : m.tryLockForDelete c.index = none := hnone
            simp only [hnone']
            exact ih m
          · have hlock' : m.tryLockForDelete c.index = some (lockedVersion, m₁) := hlock
            have hrestore : Alone cap m₁ (.restore (.pop retries c) lockedVersion, .silent)
                (popAttempts cap retries (m₁.markValid c.index lockedVersion)).1
                (.popped (popAttempts cap retries (m₁.markValid c.index lockedVersion)).2) :=
              .silent (by simp) (ih _)
            simp only [hlock']
            by_cases hversion : lockedVersion = c.slotVersion
            · subst hversion
              have hverify : (Job.pop retries c).locked c.slotVersion = .verify retries c :=
                if_pos rfl
              rw [hverify]
              refine .silent (by simp) ?_
              simp only [tick]
              cases hentry : m₁.entry c.index with
              | none => exact hrestore
              | some e =>
                  by_cases hmatches : c.Matches e
                  · simp only [if_pos hmatches]
                    rw [if_pos ⟨trivial, hmatches⟩]
                    refine .silent (by simp) (.go (by simp) (by simp) ?_)
                    exact .ret
                  · simp only [if_neg hmatches]
                    rw [if_neg fun h => hmatches h.2]
                    exact hrestore
            · have hother : (Job.pop retries c).locked lockedVersion =
                  .restore (.pop retries c) lockedVersion := if_neg hversion
              rw [hother]
              cases hentry : m₁.entry c.index with
              | none => exact hrestore
              | some e =>
                  simp only
                  rw [if_neg fun h => hversion h.1]
                  exact hrestore

/-- The loop of `clear`. -/
theorem sweep (m : Mem K V) : Alone cap m (sweepFrom cap 0) (m.clear cap) .cleared := by
  have hfrom : ∀ i, i ≤ cap →
      Alone cap ((List.range i).foldl Mem.clearSlot m) (sweepFrom cap i)
        (m.clear cap) .cleared := by
    intro i hi
    induction hi using Nat.decreasingInduction with
    | self =>
        rw [sweepFrom, if_neg (Nat.lt_irrefl cap)]
        exact .ret
    | of_succ i hi ih =>
        rw [List.range_succ, List.foldl_append, List.foldl_cons, List.foldl_nil] at ih
        generalize (List.range i).foldl Mem.clearSlot m = m₀ at ih ⊢
        rw [sweepFrom, if_pos hi]
        refine .silent (by simp) ?_
        simp only [tick]
        cases hversion : m₀.getVersionIfValid i with
        | none =>
            simp only [Mem.clearSlot, hversion] at ih
            exact ih
        | some version =>
            simp only [Mem.clearSlot, hversion] at ih
            refine lock (fun hnone => ?_) fun lockedVersion m₁ hlock => ?_
            · have hnone' : m₀.tryLockForDelete i = none := hnone
              simp only [hnone'] at ih
              exact ih
            · have hlock' : m₀.tryLockForDelete i = some (lockedVersion, m₁) := hlock
              simp only [hlock'] at ih
              split at ih
              case isTrue hsame =>
                have hvacate : (Job.clear i version : Job K V).locked lockedVersion =
                    .vacate i (.clear i) := if_pos hsame
                rw [hvacate]
                exact .silent (by simp) (.go (by simp) (by simp) ih)
              case isFalse hother =>
                have hrestore : (Job.clear i version : Job K V).locked lockedVersion =
                    .restore (.clear i version) lockedVersion := if_neg hother
                rw [hrestore]
                exact .silent (by simp) ih
  exact hfrom 0 (Nat.zero_le cap)

section Insert

variable {x : Ins K V} {i n : ℕ}

/-- Slot `i` in phase 1, the slots `is` still being ahead. -/
theorem look_slot {is : List ℕ}
    (hdone : ∀ m₁ oldValue, phase1 x.key x.value x.insertVersion (i :: is) m =
      (m₁, some oldValue) →
      Alone cap m₁ (.idle, .ret (.inserted x.key x.value (some (some oldValue)))) m' v)
    (hgo : ∀ m₁, phase1 x.key x.value x.insertVersion (i :: is) m = (m₁, none) →
      Alone cap m₁ (.claim x 0, .silent) m' v)
    (hnext : phase1 x.key x.value x.insertVersion (i :: is) m =
      phase1 x.key x.value x.insertVersion is m →
      Alone cap m (lookNext cap x i, .silent) m' v) :
    Alone cap m (.look x i, .silent) m' v := by
  refine .silent (by simp) ?_
  simp only [tick]
  cases hversion : m.getVersionIfValid i with
  | none => exact hnext (by simp only [phase1, hversion])
  | some version =>
      refine .silent (by simp) ?_
      simp only [tick]
      cases hentry : m.entry i with
      | none => exact hnext (by simp only [phase1, hversion, hentry])
      | some e =>
          by_cases hkey : e.key = x.key ∧ e.slotVersion = version
          · simp only [if_pos hkey]
            refine lock (fun hnone => hnext ?_) fun lockedVersion m₁ hlock => ?_
            · have hnone' : m.tryLockForDelete i = none := hnone
              simp only [phase1, hversion, hentry, if_pos hkey, hnone']
            · have hlock' : m.tryLockForDelete i = some (lockedVersion, m₁) := hlock
              by_cases hsame : lockedVersion = version
              · have hfetch : (Job.update x i version).locked lockedVersion = .fetch x i :=
                  if_pos hsame
                have hentry' : m₁.entry i = some e := by
                  rw [tryLockForDelete_entry hlock', hentry]
                rw [hfetch]
                refine .silent (by simp) ?_
                simp only [tick, hentry']
                refine .silent (by simp) (.silent (by simp) (.go (by simp) (by simp) ?_))
                refine hdone _ _ ?_
                simp only [phase1, hversion, hentry, if_pos hkey, hlock', if_pos hsame]
                rfl
              · have hother : (Job.update x i version).locked lockedVersion =
                    .restore (.update x i version) lockedVersion := if_neg hsame
                rw [hother]
                refine .silent (by simp) (hgo _ ?_)
                simp only [phase1, hversion, hentry, if_pos hkey, hlock', if_neg hsame]
                rfl
          · simp only [if_neg hkey]
            exact hnext (by simp only [phase1, hversion, hentry, if_neg hkey])

/-- Phase 1 from slot `i` on. -/
theorem look (hn : i + n + 1 = cap)
    (hdone : ∀ m₁ oldValue, phase1 x.key x.value x.insertVersion (List.range' i (n + 1)) m =
      (m₁, some oldValue) →
      Alone cap m₁ (.idle, .ret (.inserted x.key x.value (some (some oldValue)))) m' v)
    (hgo : ∀ m₁, phase1 x.key x.value x.insertVersion (List.range' i (n + 1)) m = (m₁, none) →
      Alone cap m₁ (.claim x 0, .silent) m' v) :
    Alone cap m (.look x i, .silent) m' v := by
  induction n generalizing i with
  | zero =>
      refine look_slot hdone hgo fun hnext => ?_
      rw [lookNext, if_neg (by omega)]
      exact hgo m hnext
  | succ n ih =>
      refine look_slot hdone hgo fun hnext => ?_
      rw [lookNext, if_pos (by omega)]
      refine ih (by omega) (fun m₁ oldValue h => hdone m₁ oldValue ?_) fun m₁ h => hgo m₁ ?_
      · exact hnext.trans h
      · exact hnext.trans h

/-- Slot `i` in phase 2, the slots `is` still being ahead. -/
theorem claim_slot {is : List ℕ}
    (hdone : ∀ m₁, phase2 x.key x.value x.insertVersion (i :: is) m = some m₁ →
      Alone cap m₁ (.idle, .ret (.inserted x.key x.value (some none))) m' v)
    (hnext : phase2 x.key x.value x.insertVersion (i :: is) m =
      phase2 x.key x.value x.insertVersion is m → Alone cap m (claimNext cap x i) m' v) :
    Alone cap m (.claim x i, .silent) m' v := by
  refine .silent (by simp) ?_
  simp only [tick]
  split
  case isTrue hfree =>
    refine .silent (by simp) (.silent (by simp) (.go (by simp) (by simp) ?_))
    refine hdone _ ?_
    simp only [phase2, Mem.tryLockForWrite, Mem.compareExchange, if_pos hfree]
    rfl
  case isFalse hother =>
    refine hnext ?_
    simp only [phase2, Mem.tryLockForWrite, Mem.compareExchange, if_neg hother]

/-- Phase 2 from slot `i` on. -/
theorem claim (hn : i + n + 1 = cap)
    (hdone : ∀ m₁, phase2 x.key x.value x.insertVersion (List.range' i (n + 1)) m = some m₁ →
      Alone cap m₁ (.idle, .ret (.inserted x.key x.value (some none))) m' v)
    (hgo : phase2 x.key x.value x.insertVersion (List.range' i (n + 1)) m = none →
      Alone cap m (insertRetry x) m' v) :
    Alone cap m (.claim x i, .silent) m' v := by
  induction n generalizing i with
  | zero =>
      refine claim_slot hdone fun hnext => ?_
      rw [claimNext, if_neg (by omega)]
      exact hgo hnext
  | succ n ih =>
      refine claim_slot hdone fun hnext => ?_
      rw [claimNext, if_pos (by omega)]
      exact ih (by omega) (fun m₁ h => hdone m₁ (hnext.trans h)) fun h => hgo (hnext.trans h)

/-- The attempts of `insert`. -/
theorem insertRetry (hcap : x.retries ≤ cap) (m : Mem K V) :
    Alone cap m (BTreeMap.insertRetry x)
      (attempts cap x.key x.value x.insertVersion x.retries m).1
      (.inserted x.key x.value (attempts cap x.key x.value x.insertVersion x.retries m).2) := by
  obtain ⟨key, value, insertVersion, retries⟩ := x
  induction retries generalizing m with
  | zero => exact .ret
  | succ retries ih =>
      have hrange : List.range' 0 (cap - 1 + 1) = List.range cap := by
        rw [List.range_eq_range', Nat.sub_add_cancel (by simp at hcap; omega)]
      have hn : 0 + (cap - 1) + 1 = cap := by
        simp only at hcap
        omega
      simp only [BTreeMap.insertRetry, attempts]
      refine look hn (fun m₁ oldValue hphase => ?_) fun m₁ hphase => ?_
      · rw [hrange] at hphase
        simp only at hphase
        rw [hphase]
        exact .ret
      · rw [hrange] at hphase
        simp only at hphase
        rw [hphase]
        refine claim hn (fun m₂ hphase₂ => ?_) fun hphase₂ => ?_
        · rw [hrange] at hphase₂
          simp only at hphase₂ ⊢
          rw [hphase₂]
          exact .ret
        · rw [hrange] at hphase₂
          simp only at hphase₂ ⊢
          rw [hphase₂]
          exact ih m₁ (Nat.le_of_succ_le hcap)

end Insert

/-- A call that nobody else comes between is a call of the single-threaded map. -/
theorem call (m : Mem K V) (c : Call K V) :
    Alone cap m (.enter c, .silent) (c.run cap m).1 (c.run cap m).2 := by
  refine .silent (by simp) ?_
  cases c with
  | insert key value => exact insertRetry (x := ⟨key, value, m.globalVersion, cap⟩) le_rfl _
  | popFirst => exact popRetry 16 m
  | clear => exact sweep m

variable {p : Pc K V} {r : Ret K V}

theorem returned (h : Alone cap m (p, .ret r) m' v) : p = .idle ∧ m = m' ∧ r = v := by
  generalize hx : (p, Event.ret r) = x at h
  cases h with
  | ret =>
      cases hx
      exact ⟨rfl, rfl, rfl⟩
  | go _ ha _ =>
      cases hx
      exact absurd rfl (ha r)

theorem unreturned {a : Event K V} (h : Alone cap m (p, a) m' v) (ha : ∀ r, a ≠ .ret r) :
    Alone cap m (p, .silent) m' v :=
  .silent (h.next ha).1 (h.next ha).2

end Alone

section Serial

/-- The calls made in a history, the oldest first. -/
def callsOf : History K V → List (Op K V)
  | [] => []
  | (_, .call (.insert key value)) :: h => callsOf h ++ [.insert key value]
  | (_, .call .popFirst) :: h => callsOf h ++ [.popFirst]
  | (_, .call .clear) :: h => callsOf h ++ [.clear]
  | _ :: h => callsOf h

/-- What the calls of a history have returned. -/
def resultsOf : History K V → List (Res K V)
  | [] => []
  | (_, .ret (.inserted _ _ r)) :: h => resultsOf h ++ [.inserted r]
  | (_, .ret (.popped r)) :: h => resultsOf h ++ [.pair r]
  | (_, .ret .cleared) :: h => resultsOf h ++ [.done]
  | _ :: h => resultsOf h

/-- Every call has returned. -/
def Settled (h : History K V) : Prop :=
  (callsOf h).length = (resultsOf h).length

instance (h : History K V) : Decidable (Settled h) :=
  inferInstanceAs (Decidable (_ = _))

/-- A call is made when every call has returned. -/
def Serial (h : History K V) (_ : State K V) : ℕ × Event K V → Prop
  | (_, .call _) => Settled h
  | _ => True

instance (h : History K V) (s : State K V) (a : ℕ × Event K V) : Decidable (Serial h s a) :=
  match a with
  | (_, .call _) => inferInstanceAs (Decidable (Settled h))
  | (_, .stored _ _) => inferInstanceAs (Decidable True)
  | (_, .took _) => inferInstanceAs (Decidable True)
  | (_, .freed _ _) => inferInstanceAs (Decidable True)
  | (_, .ret _) => inferInstanceAs (Decidable True)
  | (_, .silent) => inferInstanceAs (Decidable True)

def Call.op : Call K V → Op K V
  | .insert key value => .insert key value
  | .popFirst => .popFirst
  | .clear => .clear

def Ret.res : Ret K V → Res K V
  | .inserted _ _ r => .inserted r
  | .popped r => .pair r
  | .cleared => .done

theorem Call.op_run (c : Call K V) (m : Mem K V) :
    c.op.run cap m = ((c.run cap m).1, (c.run cap m).2.res) := by
  cases c <;> rfl

variable {h : History K V} {s s' : State K V} {t : ℕ} {a : Event K V}

omit [LinearOrder K] in
theorem callsOf_call {c : Call K V} : callsOf ((t, .call c) :: h) = callsOf h ++ [c.op] := by
  cases c <;> rfl

omit [LinearOrder K] in
theorem callsOf_other (ha : ∀ c, a ≠ .call c) : callsOf ((t, a) :: h) = callsOf h := by
  cases a with
  | call c => exact absurd rfl (ha c)
  | _ => rfl

omit [LinearOrder K] in
theorem resultsOf_ret {r : Ret K V} :
    resultsOf ((t, .ret r) :: h) = resultsOf h ++ [r.res] := by
  cases r <;> rfl

omit [LinearOrder K] in
theorem resultsOf_other (ha : ∀ r, a ≠ .ret r) : resultsOf ((t, a) :: h) = resultsOf h := by
  cases a with
  | ret r => exact absurd rfl (ha r)
  | _ => rfl

theorem runOps_append {os : List (Op K V)} {o : Op K V} {m : Mem K V} :
    runOps cap (os ++ [o]) m = ((o.run cap (runOps cap os m).1).1,
      (runOps cap os m).2 ++ [(o.run cap (runOps cap os m).1).2]) := by
  induction os generalizing m with
  | nil => rfl
  | cons o' os ih =>
      simp only [List.cons_append, runOps]
      rw [ih]

/-- The calls that have returned are calls of the single-threaded map, and so will be the one
that is on its way. -/
inductive InTurn (cap : ℕ) (h : History K V) (s : State K V) : Prop
  | settled : (∀ t, s.pc t = .idle) → runOps cap (callsOf h) Mem.new = (s.mem, resultsOf h) →
      InTurn cap h s
  | ongoing (os : List (Op K V)) (m : Mem K V) (c : Call K V) (t : ℕ) :
      callsOf h = os ++ [c.op] → runOps cap os Mem.new = (m, resultsOf h) →
      (∀ u, u ≠ t → s.pc u = .idle) →
      Alone cap s.mem (s.pc t, .silent) (c.run cap m).1 (c.run cap m).2 → InTurn cap h s

theorem runOps_length {os : List (Op K V)} {m : Mem K V} :
    (runOps cap os m).2.length = os.length := by
  induction os generalizing m with
  | nil => rfl
  | cons o os ih => simp [runOps, ih]

theorem InTurn.idle (hturn : InTurn cap h s) (hsettled : Settled h) :
    (∀ t, s.pc t = .idle) ∧ runOps cap (callsOf h) Mem.new = (s.mem, resultsOf h) := by
  cases hturn with
  | settled hidle hops => exact ⟨hidle, hops⟩
  | ongoing os m c t hcalls hops _ _ =>
      have hlength : (runOps cap os Mem.new).2.length = os.length := runOps_length
      rw [hops] at hlength
      rw [Settled, hcalls, List.length_append, List.length_singleton, hlength] at hsettled
      omega

theorem serial_inTurn (hrun : (machine K V cap).RunOf Serial h s) : InTurn cap h s := by
  refine hrun.invariant ?_ ?_
  · rintro _ rfl
    exact .settled (fun _ => rfl) rfl
  · intro h s a s' hprev hturn hserial hstep
    cases hstep with
    | @call t c _ =>
        obtain ⟨hidle, hops⟩ := hturn.idle hserial
        refine .ongoing (callsOf h) s.mem c t callsOf_call ?_ ?_ ?_
        · rw [resultsOf_other (by simp)]
          exact hops
        · intro u hu
          simpa [hu] using hidle u
        · simpa using Alone.call s.mem c
    | @tick t hbusy =>
        cases hturn with
        | settled hidle _ => exact absurd (hidle t) hbusy
        | ongoing os m c u hcalls hops hothers halone =>
            obtain rfl : t = u := by
              by_contra htu
              exact hbusy (hothers t htu)
            obtain ⟨-, hnext⟩ := halone.next (by simp)
            have hrunning : (machine K V cap).Run h s := hprev.mono fun _ _ _ _ => trivial
            have hnot : ∀ c', (tick cap s.mem (s.pc t)).2.2 ≠ .call c' :=
              (tick_turn ((Inv.of_run hrunning).bounded t)).not_call
            have hrest : ∀ u, u ≠ t → Function.update s.pc t (tick cap s.mem (s.pc t)).2.1 u =
                .idle := fun u hu => by simpa [hu] using hothers u hu
            generalize tick cap s.mem (s.pc t) = x at hnext hnot hrest ⊢
            obtain ⟨m₁, p, a⟩ := x
            by_cases hret : ∃ r, a = .ret r
            · obtain ⟨r, rfl⟩ := hret
              obtain ⟨rfl, rfl, rfl⟩ := hnext.returned
              refine .settled ?_ ?_
              · intro u
                by_cases hu : u = t
                · subst hu
                  simp
                · exact hrest u hu
              · rw [callsOf_other hnot, resultsOf_ret, hcalls, runOps_append, hops, c.op_run]
            · rw [not_exists] at hret
              refine .ongoing os m c t ?_ ?_ hrest ?_
              · rw [callsOf_other hnot, hcalls]
              · rw [resultsOf_other hret, hops]
              · simpa using hnext.unreturned hret

/-- Calls of which none is made before the one before it has returned, by whatever threads:
they return what they return on an ordered map of at most `CAPACITY` keys, and leave its
pairs in the slots. -/
theorem serial_ordered_map (hcap : cap < usize)
    (hrun : (machine K V cap).RunOf Serial h s) (hsettled : Settled h) :
    List.Forall₂ Res.Agrees (resultsOf h) (mapOps cap (callsOf h) []).2 ∧
      (s.mem.pairs cap).Perm (mapOps cap (callsOf h) []).1 ∧
      OrderedMap.Sorted (mapOps cap (callsOf h) []).1 := by
  obtain ⟨-, hops⟩ := (serial_inTurn hrun).idle hsettled
  obtain ⟨hagrees, hrest⟩ := Rests.new.runOps hcap (callsOf h)
  rw [hops] at hagrees hrest
  exact ⟨hagrees, hrest.pairs, hrest.sorted⟩

/-- Three calls by two threads. -/
def byTurns : List (Choice ℕ ℕ) :=
  .invoke 0 (.insert 5 50) :: goes 0 7 ++ .invoke 1 (.insert 3 30) :: goes 1 9 ++
    .invoke 0 .popFirst :: goes 0 14

theorem serial_ordered_map_three : ∃ (h : History ℕ ℕ) (s : State ℕ ℕ),
    (machine ℕ ℕ 2).RunOf Serial h s ∧ Settled h ∧
      callsOf h = [.insert 5 50, .insert 3 30, .popFirst] ∧
      List.Forall₂ Res.Agrees (resultsOf h) (mapOps 2 (callsOf h) []).2 := by
  let r := (playAll 2 Serial byTurns).get (by decide)
  have hrun : (machine ℕ ℕ 2).RunOf Serial r.1 r.2 := playAll_run (Option.some_get _).symm
  have hsettled : Settled r.1 := by decide
  have hcalls : callsOf r.1 = [.insert 5 50, .insert 3 30, .popFirst] := by decide
  generalize r = r at hrun hsettled hcalls
  exact ⟨r.1, r.2, hrun, hsettled, hcalls,
    (serial_ordered_map (by norm_num [usize]) hrun hsettled).1⟩

end Serial

end BTreeMap
