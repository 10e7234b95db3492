import Vsched.Map.Reader
import Vsched.Map.Sequential

/-!
# What a reader cannot pass over

A reader that is disturbed by other threads still comes upon every entry that
stays in its slot all through the call. `exact_len` counts at least the slots that
are valid all through the call and at most those that are valid at some time of
it. And where nothing is changed during the call, the readers compute what the
functions of the single-threaded map do.
-/

namespace BTreeMap

variable {K V : Type*}

/-- What a reader has made of the entry `e` that slot `i` has shown all the time. -/
def Reader.Minds (i : ℕ) (e : Entry K V) : Reader K V → Prop
  | .scan _ j cs => i < j → e.candidate i ∈ cs
  | .check _ j version cs => (i < j → e.candidate i ∈ cs) ∧ (i = j → version = e.slotVersion)
  | .recheck _ j version cs => (i < j → e.candidate i ∈ cs) ∧ (i = j → version = e.slotVersion)
  | .copy _ j version cs => (i < j → e.candidate i ∈ cs) ∧ (i = j → version = e.slotVersion)
  | _ => True

variable [LinearOrder K]

/-- The answer takes the entry `e` of slot `i` into account. -/
def Answer.Heeds (i : ℕ) (e : Entry K V) : Answer K V → Prop
  | .first o => ∃ q, o = some q ∧ q.1 ≤ e.key
  | .visited cs => e.candidate i ∈ cs
  | .exact _ => True

def ReadEvent.Heeds (i : ℕ) (e : Entry K V) : ReadEvent K V → Prop
  | .answer x => x.Heeds i e
  | _ => True

variable {cap i j r : ℕ} {e : Entry K V} {m : Mem K V} {k : Scan} {cs : List (Candidate K V)}

theorem readFrom_heeds (hi : i < cap) (hcs : i < j → e.candidate i ∈ cs) :
    (readFrom cap k j cs).1.Minds i e ∧ (readFrom cap k j cs).2.Heeds i e := by
  unfold readFrom
  split
  · exact ⟨hcs, trivial⟩
  case isFalse hj =>
    have hmem := hcs (by omega)
    refine ⟨trivial, ?_⟩
    cases k with
    | forEach => exact hmem
    | firstKeyValue =>
        cases hmin : Candidate.findMin cs with
        | none =>
            rw [Candidate.findMin_eq_none.mp hmin] at hmem
            cases hmem
        | some c =>
            simp only [Scan.answer, hmin]
            exact ⟨c.pair, rfl, (Candidate.findMin_some hmin).2 _ hmem⟩

theorem countFrom_heeds {n : ℕ} :
    (countFrom cap j n : Reader K V × ReadEvent K V).1.Minds i e ∧
      (countFrom cap j n : Reader K V × ReadEvent K V).2.Heeds i e := by
  unfold countFrom
  split <;> exact ⟨trivial, trivial⟩

theorem Reader.tick_heeds {p : Reader K V} (hi : i < cap)
    (hword : m.word i = ⟨e.slotVersion, .valid⟩) (hentry : m.entry i = some e)
    (hp : p.Minds i e) : (p.tick cap m).1.Minds i e ∧ (p.tick cap m).2.Heeds i e := by
  cases p with
  | idle => exact ⟨trivial, trivial⟩
  | enter q =>
      cases q with
      | scan k => exact readFrom_heeds hi fun h => absurd h (Nat.not_lt_zero i)
      | exactLen => exact countFrom_heeds
  | scan k j cs =>
      simp only [tick]
      split
      case _ version hversion =>
        refine ⟨⟨hp, ?_⟩, trivial⟩
        rintro rfl
        rw [Mem.getVersionIfValid_eq_some, hword, Word.mk.injEq] at hversion
        exact hversion.1.symm
      case _ hnone =>
        have hne : i ≠ j := by
          rintro rfl
          rw [Mem.getVersionIfValid_eq_some.mpr hword] at hnone
          cases hnone
        exact readFrom_heeds hi fun h => hp (by omega)
  | check k j version cs =>
      simp only [tick]
      split
      case _ d hd =>
        split
        · exact ⟨hp, trivial⟩
        case isFalse hother =>
          have hne : i ≠ j := by
            rintro rfl
            rw [hentry, Option.some.injEq] at hd
            exact hother (hd ▸ (hp.2 rfl).symm)
          exact readFrom_heeds hi fun h => hp.1 (by omega)
      case _ hnone =>
        have hne : i ≠ j := by
          rintro rfl
          rw [hentry] at hnone
          cases hnone
        exact readFrom_heeds hi fun h => hp.1 (by omega)
  | recheck k j version cs =>
      simp only [tick]
      split
      · exact ⟨hp, trivial⟩
      case isFalse hother =>
        have hne : i ≠ j := by
          rintro rfl
          refine hother (Mem.getVersionIfValid_eq_some.mpr ?_)
          rw [hword, hp.2 rfl]
        exact readFrom_heeds hi fun h => hp.1 (by omega)
  | copy k j version cs =>
      simp only [tick]
      split
      case _ d hd =>
        refine readFrom_heeds hi fun h => ?_
        rcases Nat.lt_succ_iff_lt_or_eq.mp h with hlt | rfl
        · exact List.mem_append_left _ (hp.1 hlt)
        · rw [hentry, Option.some.injEq] at hd
          refine List.mem_append_right _ (List.mem_singleton.mpr ?_)
          rw [← hd, hp.2 rfl]
          rfl
      case _ hnone =>
        have hne : i ≠ j := by
          rintro rfl
          rw [hentry] at hnone
          cases hnone
        exact readFrom_heeds hi fun h => hp.1 (by omega)
  | count j n => exact countFrom_heeds

variable {h₁ h₂ : List (Act K V)} {s s' : Watched K V} {q : Query}

/-- What holds of a reader that enters a call, and is kept by its accesses to memories
that satisfy `P`. -/
theorem reader_during {P : Mem K V → Prop} {M : Reader K V → Prop} (henter : ∀ q, M (.enter q))
    (htick : ∀ m p, P m → p.Ordered cap → M p → M (p.tick cap m).1)
    (hduring : (watched K V cap).During (fun s => P s.state.mem) h₁ (.read r (.ask q)) h₂ s) :
    M (s.reader r) := by
  refine hduring.invariant (I := fun _ s => M (s.reader r)) ?_ ?_
  · rintro s₁ s₂ _ hstep _
    generalize ha : Act.read r (ReadEvent.ask q) = a at hstep
    cases hstep with
    | change _ => cases ha
    | ask _ =>
        cases ha
        simpa using henter q
    | read _ =>
        obtain ⟨rfl, ha⟩ := Act.read.inj ha
        exact absurd ha.symm ((s₁.reader r).tick_ne_ask q)
  · intro h s b s' hrun hmem _ hold hstep
    cases hstep with
    | change _ => exact hold
    | @ask r₀ x hidle =>
        by_cases hr : r = r₀
        · subst hr
          simpa using henter x
        · simpa [hr] using hold
    | @read r₀ hbusy =>
        by_cases hr : r = r₀
        · subst hr
          simpa using htick _ _ hmem ((Watched.inv_run hrun).ordered r) hold
        · simpa [hr] using hold

/-- An entry that stays in its slot all through the call is not passed over:
`first_key_value` returns nothing greater, and `for_each` goes over it. -/
theorem answers_heed (hi : i < cap)
    (hduring : (watched K V cap).During (State.Shows ·.state i e) h₁ (.read r (.ask q)) h₂ s)
    {x : Answer K V} (hret : (watched K V cap).step s (.read r (.answer x)) s') :
    x.Heeds i e := by
  have hminds : (s.reader r).Minds i e :=
    reader_during (P := fun m => m.word i = ⟨e.slotVersion, .valid⟩ ∧ m.entry i = some e)
      (fun _ => trivial) (fun _ _ hshows _ hp => (Reader.tick_heeds hi hshows.1 hshows.2 hp).1)
      hduring
  obtain ⟨-, -, -, -, -, hshows⟩ := hduring
  have hheeds := (Reader.tick_heeds hi hshows.1 hshows.2 hminds).2
  rw [Watched.Step.answers hret] at hheeds
  exact hheeds

instance [DecidableEq V] (i : ℕ) (e : Entry K V) :
    DecidablePred fun s : Watched K V => s.state.Shows i e :=
  fun _ => inferInstanceAs (Decidable (_ ∧ _))

/-- One entry is in the map. -/
def oneStored : List (Look ℕ ℕ) :=
  .change (.invoke 0 (.insert 5 50)) :: List.replicate 7 (.change (.access 0))

/-- While a reader is in front of the second slot, a thread stores an entry there. -/
def storedAhead (n : ℕ) : List (Look ℕ ℕ) :=
  List.replicate n (.read 0) ++ .change (.invoke 0 (.insert 3 30)) ::
    List.replicate 9 (.change (.access 0))

/-- `first_key_value` answers with the lesser entry that has been stored meanwhile. -/
theorem answers_heed_first : ∃ (h₁ h₂ : List (Act ℕ ℕ)) (s s' : Watched ℕ ℕ),
    (watched ℕ ℕ 2).During (State.Shows ·.state 0 ⟨5, 50, 1, 1⟩) h₁
        (.read 0 (.ask (.scan .firstKeyValue))) h₂ s ∧
      (watched ℕ ℕ 2).step s (.read 0 (.answer (.first (some (3, 30))))) s' ∧
      (Answer.first (some (3, 30))).Heeds 0 ⟨5, 50, 1, 1⟩ := by
  let x := (Labelled.play (Watched.perform 2) (fun _ _ _ => True) oneStored []
    Watched.init).get (by decide)
  let y := (x.2.perform 2 (.ask 0 (.scan .firstKeyValue))).get (by decide)
  let x' := (Labelled.playWhile (Watched.perform 2) (State.Shows ·.state 0 ⟨5, 50, 1, 1⟩)
    (storedAhead 5 ++ List.replicate 3 (.read 0)) y.2).get (by decide)
  let z := (x'.2.perform 2 (.read 0)).get (by decide)
  have hrun : (watched ℕ ℕ 2).Run x.1 x.2 := Watched.play_run (Option.some_get _).symm
  have hy : x.2.perform 2 (.ask 0 (.scan .firstKeyValue)) = some y := (Option.some_get _).symm
  have hask : y.1 = .read 0 (.ask (.scan .firstKeyValue)) := by decide
  have hplay : Labelled.playWhile (Watched.perform 2) (State.Shows ·.state 0 ⟨5, 50, 1, 1⟩)
      (storedAhead 5 ++ List.replicate 3 (.read 0)) y.2 = some x' := (Option.some_get _).symm
  have hend : x'.2.state.Shows 0 ⟨5, 50, 1, 1⟩ := by decide
  have hz : x'.2.perform 2 (.read 0) = some z := (Option.some_get _).symm
  have hanswer : z.1 = .read 0 (.answer (.first (some (3, 30)))) := by decide
  generalize x = x, y = y, x' = x', z = z at hrun hy hask hplay hend hz hanswer
  have hduring := Labelled.System.During.play (fun _ _ _ _ => Watched.perform_step) hrun hy hask
    hplay hend
  have hret : (watched ℕ ℕ 2).step x'.2 (.read 0 (.answer (.first (some (3, 30))))) z.2 :=
    hanswer ▸ Watched.perform_step hz
  exact ⟨x.1, x'.1, x'.2, z.2, hduring, hret, answers_heed (by decide) hduring hret⟩

section Count

/-- The slots of `A` are valid and those of `B` are the only ones. -/
def Mem.Within (cap : ℕ) (A B : Finset ℕ) (m : Mem K V) : Prop :=
  (∀ i ∈ A, i < cap ∧ m.isValid i) ∧ ∀ i, i < cap → m.isValid i → i ∈ B

/-- The count of a reader at slot `i`. -/
def Reader.Counts (A B : Finset ℕ) : Reader K V → Prop
  | .count i n => (A.filter (· < i)).card ≤ n ∧ n ≤ (B.filter (· < i)).card
  | _ => True

def ReadEvent.Counts (A B : Finset ℕ) : ReadEvent K V → Prop
  | .answer (.exact n) => A.card ≤ n ∧ n ≤ B.card
  | _ => True

variable {A B : Finset ℕ}

theorem card_below_succ (A : Finset ℕ) (i : ℕ) :
    (A.filter (· < i + 1)).card = (A.filter (· < i)).card + if i ∈ A then 1 else 0 := by
  have hsplit : A.filter (· < i + 1) = A.filter (· < i) ∪ A.filter (· = i) := by
    ext j
    simp only [Finset.mem_filter, Finset.mem_union]
    constructor
    · rintro ⟨hj, hlt⟩
      rcases Nat.lt_succ_iff_lt_or_eq.mp hlt with h | h
      · exact .inl ⟨hj, h⟩
      · exact .inr ⟨hj, h⟩
    · rintro (⟨hj, h⟩ | ⟨hj, h⟩) <;> exact ⟨hj, by omega⟩
  have hdisjoint : Disjoint (A.filter (· < i)) (A.filter (· = i)) := by
    rw [Finset.disjoint_left]
    intro j hj hj'
    have hlt := (Finset.mem_filter.mp hj).2
    have heq := (Finset.mem_filter.mp hj').2
    omega
  rw [hsplit, Finset.card_union_of_disjoint hdisjoint, Finset.filter_eq']
  split <;> rfl

omit [LinearOrder K] in
theorem Mem.Within.count (hm : m.Within cap A B) (hi : i < cap) {n : ℕ}
    (hn : (A.filter (· < i)).card ≤ n ∧ n ≤ (B.filter (· < i)).card) :
    (A.filter (· < i + 1)).card ≤ (if m.isValid i then n + 1 else n) ∧
      (if m.isValid i then n + 1 else n) ≤ (B.filter (· < i + 1)).card := by
  rw [card_below_succ, card_below_succ]
  by_cases hvalid : m.isValid i = true
  · rw [if_pos hvalid, if_pos (hm.2 i hi hvalid)]
    refine ⟨?_, Nat.succ_le_succ hn.2⟩
    split <;> omega
  · have hnot : i ∉ A := fun hA => hvalid (hm.1 i hA).2
    rw [if_neg hvalid, if_neg hnot]
    exact ⟨hn.1, hn.2.trans (Nat.le_add_right _ _)⟩

omit [LinearOrder K] in
theorem countFrom_counts {n : ℕ} (hA : ∀ j ∈ A, j < cap)
    (hn : (A.filter (· < i)).card ≤ n ∧ n ≤ (B.filter (· < i)).card) :
    (countFrom cap i n : Reader K V × ReadEvent K V).1.Counts A B ∧
      (countFrom cap i n : Reader K V × ReadEvent K V).2.Counts A B := by
  unfold countFrom
  split
  case isTrue => exact ⟨hn, trivial⟩
  case isFalse hi =>
    have hall : A.filter (· < i) = A :=
      Finset.filter_true_of_mem fun j hj => (hA j hj).trans_le (Nat.le_of_not_lt hi)
    refine ⟨trivial, ?_, hn.2.trans (Finset.card_filter_le _ _)⟩
    rw [← hall]
    exact hn.1

theorem readFrom_counts :
    (readFrom cap k i cs).1.Counts A B ∧ (readFrom cap k i cs).2.Counts A B := by
  unfold readFrom
  split
  · exact ⟨trivial, trivial⟩
  · cases k <;> exact ⟨trivial, trivial⟩

theorem Reader.tick_counts {p : Reader K V} (hm : m.Within cap A B) (hordered : p.Ordered cap)
    (hp : p.Counts A B) : (p.tick cap m).1.Counts A B ∧ (p.tick cap m).2.Counts A B := by
  have hA : ∀ j ∈ A, j < cap := fun j hj => (hm.1 j hj).1
  cases p with
  | idle => exact ⟨trivial, trivial⟩
  | enter q =>
      cases q with
      | scan k => exact readFrom_counts
      | exactLen => exact countFrom_counts hA (by simp)
  | scan k j cs =>
      simp only [tick]
      split
      · exact ⟨trivial, trivial⟩
      · exact readFrom_counts
  | check k j version cs =>
      simp only [tick]
      split
      · split
        · exact ⟨trivial, trivial⟩
        · exact readFrom_counts
      · exact readFrom_counts
  | recheck k j version cs =>
      simp only [tick]
      split
      · exact ⟨trivial, trivial⟩
      · exact readFrom_counts
  | copy k j version cs =>
      simp only [tick]
      split <;> exact readFrom_counts
  | count j n => exact countFrom_counts hA (hm.count hordered.1 hp)

/-- `exact_len` counts every slot that is valid all through the call, and none that is not
valid at any time of it. -/
theorem exact_len_within
    (hduring : (watched K V cap).During (fun s => s.state.mem.Within cap A B) h₁
      (.read r (.ask q)) h₂ s) {n : ℕ}
    (hret : (watched K V cap).step s (.read r (.answer (.exact n))) s') :
    A.card ≤ n ∧ n ≤ B.card := by
  have hcounts : (s.reader r).Counts A B :=
    reader_during (P := Mem.Within cap A B) (fun _ => trivial)
      (fun _ _ hm hordered hp => (Reader.tick_counts hm hordered hp).1) hduring
  have hordered := (Watched.inv_run hduring.run).ordered r
  obtain ⟨-, -, -, -, -, hm⟩ := hduring
  have hfinal := (Reader.tick_counts hm hordered hcounts).2
  rw [Watched.Step.answers hret] at hfinal
  exact hfinal

instance : DecidablePred fun s : Watched K V => s.state.mem.Within cap A B :=
  fun _ => inferInstanceAs (Decidable (_ ∧ _))

/-- The second slot becomes valid while `exact_len` is in front of it. -/
theorem exact_len_within_two : ∃ (h₁ h₂ : List (Act ℕ ℕ)) (s s' : Watched ℕ ℕ),
    (watched ℕ ℕ 2).During (fun s => s.state.mem.Within 2 {0} {0, 1}) h₁
        (.read 0 (.ask .exactLen)) h₂ s ∧
      (watched ℕ ℕ 2).step s (.read 0 (.answer (.exact 2))) s' ∧
      ({0} : Finset ℕ).card ≤ 2 ∧ 2 ≤ ({0, 1} : Finset ℕ).card := by
  let x := (Labelled.play (Watched.perform 2) (fun _ _ _ => True) oneStored []
    Watched.init).get (by decide)
  let y := (x.2.perform 2 (.ask 0 .exactLen)).get (by decide)
  let x' := (Labelled.playWhile (Watched.perform 2) (fun s => s.state.mem.Within 2 {0} {0, 1})
    (storedAhead 2) y.2).get (by decide)
  let z := (x'.2.perform 2 (.read 0)).get (by decide)
  have hrun : (watched ℕ ℕ 2).Run x.1 x.2 := Watched.play_run (Option.some_get _).symm
  have hy : x.2.perform 2 (.ask 0 .exactLen) = some y := (Option.some_get _).symm
  have hask : y.1 = .read 0 (.ask .exactLen) := by decide
  have hplay : Labelled.playWhile (Watched.perform 2) (fun s => s.state.mem.Within 2 {0} {0, 1})
      (storedAhead 2) y.2 = some x' := (Option.some_get _).symm
  have hend : x'.2.state.mem.Within 2 {0} {0, 1} := by decide
  have hz : x'.2.perform 2 (.read 0) = some z := (Option.some_get _).symm
  have hanswer : z.1 = .read 0 (.answer (.exact 2)) := by decide
  generalize x = x, y = y, x' = x', z = z at hrun hy hask hplay hend hz hanswer
  have hduring := Labelled.System.During.play (fun _ _ _ _ => Watched.perform_step) hrun hy hask
    hplay hend
  have hret : (watched ℕ ℕ 2).step x'.2 (.read 0 (.answer (.exact 2))) z.2 :=
    hanswer ▸ Watched.perform_step hz
  have hwithin := exact_len_within hduring hret
  exact ⟨x.1, x'.1, x'.2, z.2, hduring, hret, hwithin.1, hwithin.2⟩

end Count

section Quiet

/-- What a reader has made of a memory that has not been changed since its call. -/
def Reader.Follows (m : Mem K V) : Reader K V → Prop
  | .scan _ i cs => cs = Slots.contents i m.candidate
  | .check _ i version cs =>
      cs = Slots.contents i m.candidate ∧ m.getVersionIfValid i = some version
  | .recheck _ i version cs => cs = Slots.contents i m.candidate ∧
      m.getVersionIfValid i = some version ∧ ∃ e, m.entry i = some e ∧ e.slotVersion = version
  | .copy _ i version cs => cs = Slots.contents i m.candidate ∧
      m.getVersionIfValid i = some version ∧ ∃ e, m.entry i = some e ∧ e.slotVersion = version
  | .count i n => n = (List.range i).countP m.isValid
  | _ => True

/-- The answer is what the single-threaded map computes. -/
def Answer.Right (cap : ℕ) (m : Mem K V) : Answer K V → Prop
  | .first o => o = m.firstKeyValue cap
  | .visited cs => cs = m.candidates cap
  | .exact n => n = m.exactLen cap

def ReadEvent.Right (cap : ℕ) (m : Mem K V) : ReadEvent K V → Prop
  | .answer x => x.Right cap m
  | _ => True

theorem readFrom_follows (hle : i ≤ cap) (hcs : cs = Slots.contents i m.candidate) :
    (readFrom cap k i cs).1.Follows m ∧ (readFrom cap k i cs).2.Right cap m := by
  unfold readFrom
  split
  case isTrue => exact ⟨hcs, trivial⟩
  case isFalse hi =>
    obtain rfl : i = cap := by omega
    subst hcs
    cases k <;> exact ⟨trivial, rfl⟩

/-- The pass leaves a slot that has no candidate. -/
theorem readNext_follows (hi : i < cap) (hcs : cs = Slots.contents i m.candidate)
    (hnone : m.candidate i = none) :
    (readFrom cap k (i + 1) cs).1.Follows m ∧ (readFrom cap k (i + 1) cs).2.Right cap m := by
  refine readFrom_follows hi ?_
  rw [Slots.contents_succ, hnone, hcs, Option.toList_none, List.append_nil]

theorem countFrom_follows {n : ℕ} (hle : i ≤ cap) (hn : n = (List.range i).countP m.isValid) :
    (countFrom cap i n : Reader K V × ReadEvent K V).1.Follows m ∧
      (countFrom cap i n : Reader K V × ReadEvent K V).2.Right cap m := by
  unfold countFrom
  split
  case isTrue => exact ⟨hn, trivial⟩
  case isFalse hi =>
    obtain rfl : i = cap := by omega
    exact ⟨trivial, hn⟩

theorem Reader.tick_follows {p : Reader K V} (hordered : p.Ordered cap) (hp : p.Follows m) :
    (p.tick cap m).1.Follows m ∧ (p.tick cap m).2.Right cap m := by
  cases p with
  | idle => exact ⟨trivial, trivial⟩
  | enter q =>
      cases q with
      | scan k => exact readFrom_follows (Nat.zero_le _) rfl
      | exactLen => exact countFrom_follows (Nat.zero_le _) rfl
  | scan k i cs =>
      simp only [tick]
      split
      case _ version hversion => exact ⟨⟨hp, hversion⟩, trivial⟩
      case _ hnone =>
        refine readNext_follows hordered.1 hp ?_
        simp only [Mem.candidate, hnone]
  | check k i version cs =>
      obtain ⟨hcs, hversion⟩ := hp
      simp only [tick]
      split
      case _ e he =>
        split
        case isTrue hsame => exact ⟨⟨hcs, hversion, e, he, hsame⟩, trivial⟩
        case isFalse hother =>
          refine readNext_follows hordered.1 hcs ?_
          simp only [Mem.candidate, hversion, he]
          rw [if_neg fun h => hother h.1]
      case _ hnone =>
        refine readNext_follows hordered.1 hcs ?_
        simp only [Mem.candidate, hversion, hnone]
  | recheck k i version cs =>
      simp only [tick]
      rw [if_pos hp.2.1]
      exact ⟨hp, trivial⟩
  | copy k i version cs =>
      obtain ⟨hcs, hversion, e, he, hsame⟩ := hp
      simp only [tick, he]
      refine readFrom_follows hordered.1 ?_
      have hcandidate : m.candidate i =
          some ⟨e.key, e.value, e.insertVersion, i, version⟩ := by
        simp only [Mem.candidate, hversion, he]
        rw [if_pos ⟨hsame, trivial⟩]
      rw [Slots.contents_succ, hcandidate, hcs, Option.toList_some]
  | count i n =>
      refine countFrom_follows hordered.1 ?_
      have hn : n = (List.range i).countP m.isValid := hp
      rw [List.range_succ, List.countP_append, List.countP_singleton, ← hn]
      split <;> rfl

/-- Where the memory is not changed during the call, the readers compute what the functions
of the single-threaded map do. -/
theorem quiet_answers (hduring : (watched K V cap).During (fun s => s.state.mem = m) h₁
      (.read r (.ask q)) h₂ s) {x : Answer K V}
    (hret : (watched K V cap).step s (.read r (.answer x)) s') : x.Right cap m := by
  have hfollows : (s.reader r).Follows m := by
    refine reader_during (P := (· = m)) (fun _ => trivial) ?_ hduring
    rintro _ p rfl hordered hp
    exact (Reader.tick_follows hordered hp).1
  have hordered := (Watched.inv_run hduring.run).ordered r
  obtain ⟨-, -, -, -, -, hm⟩ := hduring
  have hright := (Reader.tick_follows hordered hfollows).2
  rw [← hm, Watched.Step.answers hret, hm] at hright
  exact hright

/-- The accesses of the readers leave the memory as it is. -/
theorem quiet_during {a : Act K V} (hrun : (watched K V cap).Run (h₂ ++ a :: h₁) s)
    (hquiet : changed (h₂ ++ [a]) = []) :
    (watched K V cap).During (fun s' => s'.state.mem = s.state.mem) h₁ a h₂ s := by
  obtain ⟨s₁, s₂, hfirst, hstep, hrest⟩ := hrun.split
  refine ⟨s₁, s₂, hfirst, hstep, ?_, rfl⟩
  have hreads : ∀ b ∈ h₂, ∀ c, b ≠ .change c := by
    rintro b hb c rfl
    have hc : c ∈ changed (h₂ ++ [a]) :=
      List.mem_filterMap.mpr ⟨.change c, List.mem_append_left _ hb, rfl⟩
    rw [hquiet] at hc
    cases hc
  clear hrun hquiet
  induction hrest with
  | start hs =>
      cases hs
      exact .start rfl
  | @next h s s' b hprev _ hb ih =>
      have hsame : s'.state.mem = s.state.mem := by
        cases hb with
        | @change c _ _ => exact absurd rfl (hreads _ List.mem_cons_self c)
        | ask _ => rfl
        | read _ => rfl
      rw [hsame]
      exact (ih fun c hc => hreads c (List.mem_cons_of_mem _ hc)).next rfl hb

/-- `for_each` goes over two entries that nobody touches. -/
theorem quiet_answers_two : ∃ (h₁ h₂ : List (Act ℕ ℕ)) (m : Mem ℕ ℕ) (s s' : Watched ℕ ℕ),
    (watched ℕ ℕ 2).During (fun s => s.state.mem = m) h₁ (.read 0 (.ask (.scan .forEach))) h₂ s ∧
      (watched ℕ ℕ 2).step s
        (.read 0 (.answer (.visited [⟨5, 50, 1, 0, 1⟩, ⟨3, 30, 2, 1, 2⟩]))) s' ∧
      [⟨5, 50, 1, 0, 1⟩, ⟨3, 30, 2, 1, 2⟩] = m.candidates 2 := by
  let x := (Labelled.play (Watched.perform 2) (fun _ _ _ => True) (oneStored ++ storedAhead 0 ++
    .ask 0 (.scan .forEach) :: List.replicate 8 (.read 0)) [] Watched.init).get (by decide)
  let y := (x.2.perform 2 (.read 0)).get (by decide)
  have hrun : (watched ℕ ℕ 2).Run x.1 x.2 := Watched.play_run (Option.some_get _).symm
  have hsplit : x.1 = x.1.take 8 ++ .read 0 (.ask (.scan .forEach)) :: x.1.drop 9 := by decide
  have hquiet : changed (x.1.take 8 ++ [.read 0 (.ask (.scan .forEach))]) = [] := by decide
  have hy : x.2.perform 2 (.read 0) = some y := (Option.some_get _).symm
  have hanswer :
      y.1 = .read 0 (.answer (.visited [⟨5, 50, 1, 0, 1⟩, ⟨3, 30, 2, 1, 2⟩])) := by decide
  generalize x = x, y = y at hrun hsplit hquiet hy hanswer
  rw [hsplit] at hrun
  have hduring := quiet_during hrun hquiet
  have hret : (watched ℕ ℕ 2).step x.2
      (.read 0 (.answer (.visited [⟨5, 50, 1, 0, 1⟩, ⟨3, 30, 2, 1, 2⟩]))) y.2 :=
    hanswer ▸ Watched.perform_step hy
  exact ⟨x.1.drop 9, x.1.take 8, x.2.state.mem, x.2, y.2, hduring, hret,
    quiet_answers hduring hret⟩

end Quiet

end BTreeMap
