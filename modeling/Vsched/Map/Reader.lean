import Vsched.Map.Passed

/-!
# The calls that only read the map

`first_key_value` and `for_each` go over the slots as a pass of `pop_first` does,
and `exact_len` counts the valid ones. They change nothing, so they are added to
the machine beside the threads that do, and each of their accesses may fall
between any two of these threads' accesses.
-/

namespace BTreeMap

/-- The passes over the entries. -/
inductive Scan
  | firstKeyValue
  | forEach
  deriving DecidableEq, Repr

inductive Query
  | scan (k : Scan)
  | exactLen
  deriving DecidableEq, Repr

inductive Answer (K V : Type*)
  | first (o : Option (K × V))
  /-- What the closure of `for_each` has been called with, and the slots it was in. -/
  | visited (cs : List (Candidate K V))
  | exact (n : ℕ)
  deriving DecidableEq, Repr

/-- Where a reader stands: outside any call, or in front of the next access. -/
inductive Reader (K V : Type*)
  | idle
  | enter (q : Query)
  | scan (k : Scan) (i : ℕ) (cs : List (Candidate K V))
  | check (k : Scan) (i version : ℕ) (cs : List (Candidate K V))
  | recheck (k : Scan) (i version : ℕ) (cs : List (Candidate K V))
  | copy (k : Scan) (i version : ℕ) (cs : List (Candidate K V))
  | count (i n : ℕ)
  deriving DecidableEq, Repr

inductive ReadEvent (K V : Type*)
  | ask (q : Query)
  | answer (a : Answer K V)
  | silent
  deriving DecidableEq, Repr

variable {K V : Type*}

/-- The slot `i` of the map that holds `e`, as a candidate. -/
def Entry.candidate (e : Entry K V) (i : ℕ) : Candidate K V :=
  ⟨e.key, e.value, e.insertVersion, i, e.slotVersion⟩

def Candidate.pair (c : Candidate K V) : K × V := (c.key, c.value)

section Machine

variable [LinearOrder K]

def Scan.answer : Scan → List (Candidate K V) → Answer K V
  | .firstKeyValue, cs => .first ((Candidate.findMin cs).map Candidate.pair)
  | .forEach, cs => .visited cs

/-- The pass goes on at slot `i`, or it is over. -/
def readFrom (cap : ℕ) (k : Scan) (i : ℕ) (cs : List (Candidate K V)) :
    Reader K V × ReadEvent K V :=
  if i < cap then (.scan k i cs, .silent) else (.idle, .answer (k.answer cs))

omit [LinearOrder K] in
def countFrom (cap i n : ℕ) : Reader K V × ReadEvent K V :=
  if i < cap then (.count i n, .silent) else (.idle, .answer (.exact n))

/-- One access of a reader. -/
def Reader.tick (cap : ℕ) (m : Mem K V) : Reader K V → Reader K V × ReadEvent K V
  | .idle => (.idle, .silent)
  | .enter (.scan k) => readFrom cap k 0 []
  | .enter .exactLen => countFrom cap 0 0
  | .scan k i cs =>
      match m.getVersionIfValid i with
      | some version => (.check k i version cs, .silent)
      | none => readFrom cap k (i + 1) cs
  | .check k i version cs =>
      match m.entry i with
      | some e =>
          if e.slotVersion = version then (.recheck k i version cs, .silent)
          else readFrom cap k (i + 1) cs
      | none => readFrom cap k (i + 1) cs
  | .recheck k i version cs =>
      if m.getVersionIfValid i = some version then (.copy k i version cs, .silent)
      else readFrom cap k (i + 1) cs
  | .copy k i version cs =>
      match m.entry i with
      | some e =>
          readFrom cap k (i + 1) (cs ++ [⟨e.key, e.value, e.insertVersion, i, version⟩])
      | none => readFrom cap k (i + 1) cs
  | .count i n => countFrom cap (i + 1) (if m.isValid i then n + 1 else n)

end Machine

/-- The map with its readers. -/
structure Watched (K V : Type*) where
  state : State K V
  reader : ℕ → Reader K V

/-- A step of a thread that changes the map, or of a reader. -/
inductive Act (K V : Type*)
  | change (a : ℕ × Event K V)
  | read (r : ℕ) (a : ReadEvent K V)
  deriving DecidableEq, Repr

/-- What the threads that change the map have done. -/
def changed (h : List (Act K V)) : History K V :=
  h.filterMap fun
    | .change a => some a
    | .read _ _ => none

variable [LinearOrder K]

inductive Watched.Step (cap : ℕ) : Watched K V → Act K V → Watched K V → Prop
  | change {s : Watched K V} {a : ℕ × Event K V} {s' : State K V} :
      BTreeMap.Step cap s.state a s' → Step cap s (.change a) ⟨s', s.reader⟩
  | ask {s : Watched K V} {r : ℕ} {q : Query} :
      s.reader r = .idle →
      Step cap s (.read r (.ask q)) ⟨s.state, Function.update s.reader r (.enter q)⟩
  | read {s : Watched K V} {r : ℕ} :
      s.reader r ≠ .idle →
      Step cap s (.read r ((s.reader r).tick cap s.state.mem).2)
        ⟨s.state, Function.update s.reader r ((s.reader r).tick cap s.state.mem).1⟩

def Watched.init : Watched K V := ⟨State.init, fun _ => .idle⟩

/-- The map of capacity `cap` and its readers under every interleaving. -/
def watched (K V : Type*) [LinearOrder K] (cap : ℕ) :
    Labelled.System (Watched K V) (Act K V) where
  start := fun s => s = Watched.init
  step := Watched.Step cap

/-- Who makes the next step: one of the threads that change the map, or a reader. -/
inductive Look (K V : Type*)
  | change (k : Choice K V)
  | ask (r : ℕ) (q : Query)
  | read (r : ℕ)

/-- The step a choice leads to. -/
def Watched.perform (cap : ℕ) (s : Watched K V) : Look K V → Option (Act K V × Watched K V)
  | .change k => (BTreeMap.perform cap s.state k).map fun x => (.change x.1, ⟨x.2, s.reader⟩)
  | .ask r q =>
      match s.reader r with
      | .idle => some (.read r (.ask q), ⟨s.state, Function.update s.reader r (.enter q)⟩)
      | _ => none
  | .read r =>
      match s.reader r with
      | .idle => none
      | p =>
          let x := p.tick cap s.state.mem
          some (.read r x.2, ⟨s.state, Function.update s.reader r x.1⟩)

theorem Watched.perform_step {cap : ℕ} {s s' : Watched K V} {k : Look K V} {a : Act K V}
    (h : s.perform cap k = some (a, s')) : Watched.Step cap s a s' := by
  cases k with
  | change k =>
      obtain ⟨x, hx, hxa⟩ := Option.map_eq_some_iff.mp h
      cases hxa
      exact .change (BTreeMap.perform_step hx)
  | ask r q =>
      cases hr : s.reader r <;> simp only [perform, hr] at h <;> cases h
      exact .ask hr
  | read r =>
      have hbusy : s.reader r ≠ .idle := by
        intro hidle
        simp [perform, hidle] at h
      have hstep : Watched.Step cap s _ _ := .read hbusy
      cases hr : s.reader r <;> simp only [perform, hr] at h <;> cases h <;>
        simpa only [hr] using hstep

variable {cap r : ℕ} {h : List (Act K V)} {s s' : Watched K V} {m : Mem K V} {a : Act K V}

theorem Watched.play_run {ks : List (Look K V)} {x : List (Act K V) × Watched K V}
    (h : Labelled.play (perform cap) (fun _ _ _ => True) ks [] init = some x) :
    (watched K V cap).Run x.1 x.2 :=
  .play (fun _ _ _ _ => perform_step) (.start rfl) h

/-- Readers are not noticed. -/
theorem watched_changed {G : List (Act K V) → Watched K V → Act K V → Prop}
    (hrun : (watched K V cap).RunOf G h s) : (machine K V cap).Run (changed h) s.state := by
  induction hrun with
  | start hs =>
      cases hs
      exact .start rfl
  | next _ _ hstep ih =>
      cases hstep with
      | change hchange => exact ih.next trivial hchange
      | ask _ => exact ih
      | read _ => exact ih

section Order

/-- A reader has copied from slots it has passed, each at most once and in their order. -/
def Reader.Ordered (cap : ℕ) : Reader K V → Prop
  | .scan _ i cs => i < cap ∧ (cs.map Candidate.index).Pairwise (· < ·) ∧ ∀ c ∈ cs, c.index < i
  | .check _ i _ cs => i < cap ∧ (cs.map Candidate.index).Pairwise (· < ·) ∧ ∀ c ∈ cs, c.index < i
  | .recheck _ i _ cs =>
      i < cap ∧ (cs.map Candidate.index).Pairwise (· < ·) ∧ ∀ c ∈ cs, c.index < i
  | .copy _ i _ cs => i < cap ∧ (cs.map Candidate.index).Pairwise (· < ·) ∧ ∀ c ∈ cs, c.index < i
  | .count i n => i < cap ∧ n ≤ i
  | _ => True

def ReadEvent.Ordered (cap : ℕ) : ReadEvent K V → Prop
  | .answer (.visited cs) => (cs.map Candidate.index).Pairwise (· < ·) ∧ ∀ c ∈ cs, c.index < cap
  | .answer (.exact n) => n ≤ cap
  | _ => True

variable {k : Scan} {i : ℕ} {cs : List (Candidate K V)}

theorem readFrom_ordered (hle : i ≤ cap) (hsorted : (cs.map Candidate.index).Pairwise (· < ·))
    (hlt : ∀ c ∈ cs, c.index < i) :
    (readFrom cap k i cs).1.Ordered cap ∧ (readFrom cap k i cs).2.Ordered cap := by
  unfold readFrom
  split
  case isTrue hi => exact ⟨⟨hi, hsorted, hlt⟩, trivial⟩
  case isFalse =>
    cases k with
    | firstKeyValue => exact ⟨trivial, trivial⟩
    | forEach => exact ⟨trivial, hsorted, fun c hc => (hlt c hc).trans_le hle⟩

omit [LinearOrder K] in
theorem countFrom_ordered {n : ℕ} (hle : i ≤ cap) (hn : n ≤ i) :
    (countFrom cap i n : Reader K V × ReadEvent K V).1.Ordered cap ∧
      (countFrom cap i n : Reader K V × ReadEvent K V).2.Ordered cap := by
  unfold countFrom
  split
  case isTrue hi => exact ⟨⟨hi, hn⟩, trivial⟩
  case isFalse => exact ⟨trivial, hn.trans hle⟩

/-- The pass leaves slot `i` without a copy. -/
theorem readNext_ordered (h : i < cap ∧ (cs.map Candidate.index).Pairwise (· < ·) ∧
    ∀ c ∈ cs, c.index < i) :
    (readFrom cap k (i + 1) cs).1.Ordered cap ∧ (readFrom cap k (i + 1) cs).2.Ordered cap :=
  readFrom_ordered h.1 h.2.1 fun c hc => (h.2.2 c hc).trans (Nat.lt_succ_self i)

/-- The pass leaves slot `i` with a copy. -/
theorem readCopied_ordered {c : Candidate K V} (h : i < cap ∧
    (cs.map Candidate.index).Pairwise (· < ·) ∧ ∀ c ∈ cs, c.index < i) (hc : c.index = i) :
    (readFrom cap k (i + 1) (cs ++ [c])).1.Ordered cap ∧
      (readFrom cap k (i + 1) (cs ++ [c])).2.Ordered cap := by
  refine readFrom_ordered h.1 ?_ ?_
  · rw [List.map_append, List.pairwise_append]
    refine ⟨h.2.1, List.pairwise_singleton _ _, ?_⟩
    rintro j hj l hl
    obtain ⟨d, hd, rfl⟩ := List.mem_map.mp hj
    rw [List.map_singleton, List.mem_singleton] at hl
    rw [hl, hc]
    exact h.2.2 d hd
  · intro d hd
    rcases List.mem_append.mp hd with hd | hd
    · exact (h.2.2 d hd).trans (Nat.lt_succ_self i)
    · rw [List.mem_singleton.mp hd, hc]
      exact Nat.lt_succ_self i

theorem Reader.tick_ordered {p : Reader K V} (hp : p.Ordered cap) :
    (p.tick cap m).1.Ordered cap ∧ (p.tick cap m).2.Ordered cap := by
  cases p with
  | idle => exact ⟨trivial, trivial⟩
  | enter q =>
      cases q with
      | scan k => exact readFrom_ordered (Nat.zero_le _) .nil (by simp)
      | exactLen => exact countFrom_ordered (Nat.zero_le _) le_rfl
  | scan k i cs =>
      simp only [tick]
      split
      · exact ⟨hp, trivial⟩
      · exact readNext_ordered hp
  | check k i version cs =>
      simp only [tick]
      split
      · split
        · exact ⟨hp, trivial⟩
        · exact readNext_ordered hp
      · exact readNext_ordered hp
  | recheck k i version cs =>
      simp only [tick]
      split
      · exact ⟨hp, trivial⟩
      · exact readNext_ordered hp
  | copy k i version cs =>
      simp only [tick]
      split
      · exact readCopied_ordered hp rfl
      · exact readNext_ordered hp
  | count i n =>
      refine countFrom_ordered hp.1 ?_
      have hn := hp.2
      split <;> omega

end Order

section Inserting

/-- The pair that a thread has called `insert` with and has not stored yet. -/
def inserting : History K V → ℕ → Option (K × V)
  | [], _ => none
  | (u, .call (.insert key value)) :: h, t => if u = t then some (key, value) else inserting h t
  | (u, .stored _ _) :: h, t => if u = t then none else inserting h t
  | (u, .ret _) :: h, t => if u = t then none else inserting h t
  | _ :: h, t => inserting h t

variable {i t : ℕ} {x : Ins K V}

/-- An access after which the pair of an `insert` is no longer pending. -/
def Event.Settles : Event K V → Prop
  | .stored _ _ => True
  | .ret (.inserted _ _ none) => True
  | _ => False

omit [LinearOrder K] in
theorem Onward.pending {o : Option (K × V)} {y : Pc K V × Event K V} (h : Onward cap o y)
    (hsettles : ¬ y.2.Settles) : y.1.pending = o := by
  cases h with
  | failed x => exact absurd trivial hsettles
  | look x hi => rfl
  | claim x hi => rfl
  | nothing => rfl
  | scan hi hcs => rfl
  | lock hc => rfl
  | cleared => rfl
  | sweep hi => rfl

/-- A pair is pending until it is stored or refused. -/
theorem tick_pending {p : Pc K V} (hbound : p.Bounded cap) :
    ¬ (tick cap m p).2.2.Settles → (tick cap m p).2.1.pending = p.pending := by
  cases p with
  | enter c =>
      cases c with
      | insert key value => exact (insertFirst_onward key value _).pending
      | popFirst => exact (popRetry_onward 16).pending
      | clear => exact sweepFrom_onward.pending
  | look x i =>
      simp only [tick]
      split
      · exact fun _ => rfl
      · exact (lookNext_onward hbound).pending
  | peek x i version =>
      simp only [tick]
      split
      · split
        · exact fun _ => rfl
        · exact (lookNext_onward hbound).pending
      · exact (lookNext_onward hbound).pending
  | lock j =>
      simp only [tick]
      split
      · exact fun _ => rfl
      · exact (j.refused_onward hbound).pending
  | cas j current =>
      simp only [tick]
      split
      · exact fun _ => Job.locked_pending
      · exact (j.refused_onward hbound.1).pending
  | fetch x i =>
      simp only [tick]
      split <;> exact fun _ => rfl
  | claim x i =>
      simp only [tick]
      split
      · exact fun _ => rfl
      · exact (claimNext_onward hbound).pending
  | scan retries i cs =>
      simp only [tick]
      split
      · exact fun _ => rfl
      · exact (scanFrom_onward hbound.2).pending
  | check retries i version cs =>
      simp only [tick]
      split
      · split
        · exact fun _ => rfl
        · exact (scanFrom_onward hbound.2).pending
      · exact (scanFrom_onward hbound.2).pending
  | recheck retries i version cs =>
      simp only [tick]
      split
      · exact fun _ => rfl
      · exact (scanFrom_onward hbound.2).pending
  | copy retries i version cs =>
      simp only [tick]
      split
      · exact (scanFrom_onward (candidates_bounded hbound.2 hbound.1)).pending
      · exact (scanFrom_onward hbound.2).pending
  | verify retries c =>
      simp only [tick]
      split
      · split <;> exact fun _ => rfl
      · exact fun _ => rfl
  | restore j lockedVersion => exact (j.restored_onward hbound).pending
  | uncount x =>
      cases x with
      | pop q => exact fun _ => rfl
      | clear i => exact sweepFrom_onward.pending
  | sweep i =>
      simp only [tick]
      split
      · exact fun _ => rfl
      · exact sweepFrom_onward.pending
  | republish x i oldValue => exact fun h => absurd trivial h
  | publish x i => exact fun h => absurd trivial h
  | idle => exact fun _ => rfl
  | rewrite x i oldValue => exact fun _ => rfl
  | updated x oldValue => exact fun _ => rfl
  | write x i => exact fun _ => rfl
  | count x => exact fun _ => rfl
  | vacate i x => exact fun _ => rfl

omit [LinearOrder K] in
theorem inserting_other {h : History K V} {u : ℕ} {a : Event K V} (hne : u ≠ t) :
    inserting ((u, a) :: h) t = inserting h t := by
  cases a with
  | call c => cases c <;> simp [inserting, hne]
  | _ => simp [inserting, hne]

/-- A thread that is about to store a pair is in an `insert` of it. -/
theorem pending_inserting {h : History K V} {s : State K V} (hrun : (machine K V cap).Run h s)
    (t : ℕ) (q : K × V) (hq : (s.pc t).pending = some q) : inserting h t = some q := by
  refine hrun.invariant
    (I := fun h s => ∀ t q, (s.pc t).pending = some q → inserting h t = some q) ?_ ?_ t q hq
  · rintro _ rfl t q hq
    cases hq
  · intro h s a s' hprev ih _ hstep u q hq
    cases hstep with
    | @call t c hidle =>
        by_cases htu : t = u
        · subst htu
          simp only [Function.update_self] at hq
          cases c with
          | insert key value =>
              cases hq
              simp [inserting]
          | popFirst => cases hq
          | clear => cases hq
        · rw [inserting_other htu]
          simp only [Function.update_of_ne (Ne.symm htu)] at hq
          exact ih u q hq
    | @tick t hbusy =>
        by_cases htu : t = u
        · subst htu
          simp only [Function.update_self] at hq
          have hturn := tick_turn (m := s.mem) ((Inv.of_run hprev).bounded t)
          have hends : Ends (tick cap s.mem (s.pc t)).2 := tick_ends _
          have hold := ih t q (hturn.kept hq)
          generalize tick cap s.mem (s.pc t) = x at hturn hends hq ⊢
          cases ha : x.2.2 with
          | call c => exact absurd ha (hturn.not_call c)
          | stored i q' =>
              rw [(hturn.stored_pending ha).2] at hq
              cases hq
          | ret v =>
              rw [hends v ha] at hq
              cases hq
          | took i => exact hold
          | freed i p => exact hold
          | silent => exact hold
        · rw [inserting_other htu]
          simp only [Function.update_of_ne (Ne.symm htu)] at hq
          exact ih u q hq

/-- An entry appears in a slot during an `insert` of its pair. -/
theorem Step.entry_inserting {h : History K V} {s s' : State K V} {a : ℕ × Event K V}
    (hrun : (machine K V cap).Run h s) (hstep : Step cap s a s') {e : Entry K V}
    (he : s'.mem.entry i = some e) :
    s.mem.entry i = some e ∨ ∃ t, inserting h t = some e.pair := by
  cases hstep with
  | call hidle => exact .inl he
  | @tick t hbusy =>
      cases hpc : s.pc t with
      | write x j =>
          have hpending := pending_inserting hrun t x.entry.pair (by rw [hpc]; rfl)
          simp only [hpc, BTreeMap.tick, Mem.setEntry, Function.update_apply] at he
          split at he
          · cases he
            exact .inr ⟨t, hpending⟩
          · exact .inl he
      | rewrite x j v =>
          have hpending := pending_inserting hrun t x.entry.pair (by rw [hpc]; rfl)
          simp only [hpc, BTreeMap.tick, Mem.setEntry, Function.update_apply] at he
          split at he
          · cases he
            exact .inr ⟨t, hpending⟩
          · exact .inl he
      | _ =>
          simp only [hpc] at he
          rw [tick_entry (by simp) (by simp)] at he
          exact .inl he

end Inserting

section Glimpse

/-- The pair is in the map, or it is about to be stored. -/
def Around (cap : ℕ) (q : K × V) (h : History K V) : Prop :=
  (∃ i, i < cap ∧ live h i = some q) ∨ ∃ t, inserting h t = some q

/-- The pair was around at some instant since reader `r` has made its call. -/
def Glimpsed (cap r : ℕ) (q : K × V) (h : List (Act K V)) : Prop :=
  Labelled.Since (fun a => ∃ x, a = .read r (.ask x)) (fun g => Around cap q (changed g)) h

/-- What a reader has copied, and what it is about to copy, has `P`, the entries
being `d`. -/
def Reader.Backed (P : K × V → Prop) (d : ℕ → Option (Entry K V)) : Reader K V → Prop
  | .scan _ _ cs => ∀ c ∈ cs, P c.pair
  | .check _ _ _ cs => ∀ c ∈ cs, P c.pair
  | .recheck _ _ _ cs => ∀ c ∈ cs, P c.pair
  | .copy _ i _ cs => (∀ c ∈ cs, P c.pair) ∧ ∀ e, d i = some e → P e.pair
  | _ => True

/-- What an answer is made up of has `P`. -/
def ReadEvent.Backed (P : K × V → Prop) : ReadEvent K V → Prop
  | .answer (.first o) => ∀ q, o = some q → P q
  | .answer (.visited cs) => ∀ c ∈ cs, P c.pair
  | _ => True

variable {P Q : K × V → Prop} {d d' : ℕ → Option (Entry K V)} {p : Reader K V}

theorem readFrom_backed {k : Scan} {i : ℕ} {cs : List (Candidate K V)} (hcs : ∀ c ∈ cs, P c.pair) :
    (readFrom cap k i cs).1.Backed P d ∧ (readFrom cap k i cs).2.Backed P := by
  unfold readFrom
  split
  · exact ⟨hcs, trivial⟩
  · cases k with
    | firstKeyValue =>
        refine ⟨trivial, fun q hq => ?_⟩
        obtain ⟨c, hc, rfl⟩ := Option.map_eq_some_iff.mp hq
        exact hcs c (Candidate.findMin_some hc).1
    | forEach => exact ⟨trivial, hcs⟩

omit [LinearOrder K] in
theorem countFrom_backed {i n : ℕ} :
    (countFrom cap i n : Reader K V × ReadEvent K V).1.Backed P d ∧
      (countFrom cap i n : Reader K V × ReadEvent K V).2.Backed P := by
  unfold countFrom
  split <;> exact ⟨trivial, trivial⟩

/-- A slot that has been valid when the pass has loaded its word again. -/
theorem Reader.tick_backed (hp : p.Backed P m.entry)
    (hvalid : ∀ i, i < cap → (m.word i).state = .valid → ∀ e, m.entry i = some e → P e.pair)
    (hordered : p.Ordered cap) :
    (p.tick cap m).1.Backed P m.entry ∧ (p.tick cap m).2.Backed P := by
  cases p with
  | idle => exact ⟨trivial, trivial⟩
  | enter q =>
      cases q with
      | scan k => exact readFrom_backed (by simp)
      | exactLen => exact countFrom_backed
  | scan k i cs =>
      simp only [tick]
      split
      · exact ⟨hp, trivial⟩
      · exact readFrom_backed hp
  | check k i version cs =>
      simp only [tick]
      split
      · split
        · exact ⟨hp, trivial⟩
        · exact readFrom_backed hp
      · exact readFrom_backed hp
  | recheck k i version cs =>
      simp only [tick]
      split
      case isTrue hversion =>
        rw [Mem.getVersionIfValid_eq_some] at hversion
        exact ⟨⟨hp, hvalid i hordered.1 (by rw [hversion])⟩, trivial⟩
      case isFalse => exact readFrom_backed hp
  | copy k i version cs =>
      simp only [tick]
      split
      case _ e he =>
        refine readFrom_backed fun c hc => ?_
        rcases List.mem_append.mp hc with hc | hc
        · exact hp.1 c hc
        · rw [List.mem_singleton.mp hc]
          exact hp.2 e he
      case _ => exact readFrom_backed hp.1
  | count i n => exact countFrom_backed

omit [LinearOrder K] in
theorem Reader.Backed.mono (hp : p.Backed P d) (hle : ∀ q, P q → Q q)
    (hentry : ∀ i e, d' i = some e → d i = some e ∨ Q e.pair) : p.Backed Q d' := by
  cases p with
  | copy k i version cs =>
      refine ⟨fun c hc => hle _ (hp.1 c hc), fun e he => ?_⟩
      rcases hentry i e he with hold | hnew
      · exact hle _ (hp.2 e hold)
      · exact hnew
  | scan k i cs => exact fun c hc => hle _ (hp c hc)
  | check k i version cs => exact fun c hc => hle _ (hp c hc)
  | recheck k i version cs => exact fun c hc => hle _ (hp c hc)
  | _ => exact trivial

omit [LinearOrder K] in
theorem Glimpsed.later {q : K × V} (hq : Glimpsed cap r q h) (ha : ∀ x, a ≠ .read r (.ask x)) :
    Glimpsed cap r q (a :: h) :=
  Labelled.Since.later hq fun ⟨x, hx⟩ => ha x hx

theorem Reader.tick_ne_ask (p : Reader K V) (x : Query) : (p.tick cap m).2 ≠ .ask x := by
  have hread : ∀ k i (cs : List (Candidate K V)), (readFrom cap k i cs).2 ≠ .ask x := by
    intro k i cs
    unfold readFrom
    split <;> simp
  have hcount : ∀ i n, (countFrom cap i n : Reader K V × ReadEvent K V).2 ≠ .ask x := by
    intro i n
    unfold countFrom
    split <;> simp
  cases p with
  | idle => simp [Reader.tick]
  | enter q =>
      cases q with
      | scan k => exact hread _ _ _
      | exactLen => exact hcount _ _
  | scan k i cs =>
      simp only [Reader.tick]
      split
      · simp
      · exact hread _ _ _
  | check k i version cs =>
      simp only [Reader.tick]
      split
      · split
        · simp
        · exact hread _ _ _
      · exact hread _ _ _
  | recheck k i version cs =>
      simp only [Reader.tick]
      split
      · simp
      · exact hread _ _ _
  | copy k i version cs =>
      simp only [Reader.tick]
      split <;> exact hread _ _ _
  | count i n => exact hcount _ _

/-- What holds of every reader. -/
structure Watched.Inv (cap : ℕ) (h : List (Act K V)) (s : Watched K V) : Prop where
  ordered : ∀ r, (s.reader r).Ordered cap
  backed : ∀ r, (s.reader r).Backed (Glimpsed cap r · h) s.state.mem.entry

/-- An access of a reader keeps what it has copied in order and accounted for. -/
theorem Watched.Inv.tick (hs : s.Inv cap h) (hinv : BTreeMap.Inv cap (changed h) s.state) (r : ℕ) :
    (((s.reader r).tick cap s.state.mem).1.Ordered cap ∧
      ((s.reader r).tick cap s.state.mem).2.Ordered cap) ∧
    ((s.reader r).tick cap s.state.mem).1.Backed (Glimpsed cap r · h) s.state.mem.entry ∧
      ((s.reader r).tick cap s.state.mem).2.Backed (Glimpsed cap r · h) := by
  refine ⟨Reader.tick_ordered (hs.ordered r), ?_⟩
  refine Reader.tick_backed (hs.backed r) ?_ (hs.ordered r)
  intro i hi hvalid e he
  obtain ⟨e', -, he', -, hlive⟩ := hinv.valid hi hvalid
  rw [he, Option.some.injEq] at he'
  exact .now (.inl ⟨i, hi, he' ▸ hlive⟩)

theorem Watched.inv_run {G : List (Act K V) → Watched K V → Act K V → Prop}
    (hrun : (watched K V cap).RunOf G h s) : s.Inv cap h := by
  refine hrun.invariant ?_ ?_
  · rintro _ rfl
    exact ⟨fun _ => trivial, fun _ => trivial⟩
  · intro h s a s' hprev hs _ hstep
    have hchanged := watched_changed hprev
    have hsame : ∀ (r : ℕ) (d : ℕ → Option (Entry K V)) (i : ℕ) (e : Entry K V), d i = some e →
        d i = some e ∨ Glimpsed cap r e.pair (a :: h) := fun r d i e he => .inl he
    cases hstep with
    | @change a s₁ hchange =>
        refine ⟨hs.ordered, fun r => (hs.backed r).mono (fun q hq => hq.later (by simp)) ?_⟩
        intro i e he
        refine (hchange.entry_inserting hchanged he).imp_right fun hnew => ?_
        have hnow : Glimpsed cap r e.pair h := .now (.inr hnew)
        exact hnow.later (by simp)
    | @ask r₀ q hidle =>
        constructor
        · intro r
          by_cases hr : r = r₀
          · subst hr
            simp [Reader.Ordered]
          · simpa [hr] using hs.ordered r
        · intro r
          by_cases hr : r = r₀
          · subst hr
            simp [Reader.Backed]
          · simp only [Function.update_of_ne hr]
            refine (hs.backed r).mono (fun q hq => hq.later ?_) (hsame r _)
            simp [Ne.symm hr]
    | @read r₀ hbusy =>
        obtain ⟨hordered, hbacked⟩ := hs.tick (Inv.of_run hchanged) r₀
        constructor
        · intro r
          by_cases hr : r = r₀
          · subst hr
            simpa using hordered.1
          · simpa [hr] using hs.ordered r
        · intro r
          by_cases hr : r = r₀
          · subst hr
            simp only [Function.update_self]
            refine hbacked.1.mono (fun q hq => hq.later fun x hx => ?_) (hsame r _)
            exact (s.reader r).tick_ne_ask x (Act.read.inj hx).2
          · simp only [Function.update_of_ne hr]
            refine (hs.backed r).mono (fun q hq => hq.later fun x hx => ?_) (hsame r _)
            exact hr (Act.read.inj hx).1.symm

/-- What may be said of an answer however the other threads have interfered. -/
def Answer.Sound (cap r : ℕ) (h : List (Act K V)) : Answer K V → Prop
  | .first o => ∀ q, o = some q → Glimpsed cap r q h
  | .visited cs =>
      (cs.map Candidate.index).Pairwise (· < ·) ∧
        ∀ c ∈ cs, c.index < cap ∧ Glimpsed cap r c.pair h
  | .exact n => n ≤ cap

theorem Watched.Step.answers {x : Answer K V} (hret : Watched.Step cap s (.read r (.answer x)) s') :
    ((s.reader r).tick cap s.state.mem).2 = .answer x := by
  generalize ha : Act.read r (ReadEvent.answer x) = a at hret
  cases hret with
  | change _ => cases ha
  | ask _ => cases ha
  | read _ =>
      obtain ⟨rfl, ha⟩ := Act.read.inj ha
      exact ha.symm

/-- Whatever the other threads do: `first_key_value` returns a pair, and `for_each` goes
over pairs, that were in the map or were being inserted at some instant of the call; and
`for_each` goes over the slots in order and over none of them twice. -/
theorem answers_sound (hrun : (watched K V cap).Run h s) {x : Answer K V}
    (hret : (watched K V cap).step s (.read r (.answer x)) s') : x.Sound cap r h := by
  obtain ⟨⟨-, hordered⟩, -, hbacked⟩ :=
    (Watched.inv_run hrun).tick (Inv.of_run (watched_changed hrun)) r
  rw [Watched.Step.answers hret] at hordered hbacked
  cases x with
  | first o => exact hbacked
  | visited cs => exact ⟨hordered.1, fun c hc => ⟨hordered.2 c hc, hbacked c hc⟩⟩
  | exact n => exact hordered

/-- A reader goes over two slots while the first of them is emptied. -/
def poppedMeanwhile : List (Look ℕ ℕ) :=
  .change (.invoke 0 (.insert 5 50)) :: List.replicate 7 (.change (.access 0)) ++
    .ask 0 (.scan .firstKeyValue) :: List.replicate 4 (.read 0) ++
    .change (.invoke 1 .popFirst) :: List.replicate 11 (.change (.access 1)) ++ [.read 0]

/-- The pair that `first_key_value` returns has been taken out by another thread. -/
theorem answers_sound_popped : ∃ (h : List (Act ℕ ℕ)) (s s' : Watched ℕ ℕ),
    (watched ℕ ℕ 2).Run h s ∧ Act.change (1, .ret (.popped (some (5, 50)))) ∈ h ∧
      (watched ℕ ℕ 2).step s (.read 0 (.answer (.first (some (5, 50))))) s' ∧
      (Answer.first (some (5, 50))).Sound 2 0 h := by
  let x := (Labelled.play (Watched.perform 2) (fun _ _ _ => True) poppedMeanwhile []
    Watched.init).get (by decide)
  let y := (x.2.perform 2 (.read 0)).get (by decide)
  have hrun : (watched ℕ ℕ 2).Run x.1 x.2 := Watched.play_run (Option.some_get _).symm
  have hpopped : Act.change (1, .ret (.popped (some (5, 50)))) ∈ x.1 := by decide
  have hy : x.2.perform 2 (.read 0) = some y := (Option.some_get _).symm
  have hanswer : y.1 = .read 0 (.answer (.first (some (5, 50)))) := by decide
  generalize x = x, y = y at hrun hpopped hy hanswer
  have hret : (watched ℕ ℕ 2).step x.2 (.read 0 (.answer (.first (some (5, 50))))) y.2 :=
    hanswer ▸ Watched.perform_step hy
  exact ⟨x.1, x.2, y.2, hrun, hpopped, hret, answers_sound hrun hret⟩

end Glimpse

end BTreeMap
