import Vsched.Map.Attempts

/-!
# What `pop_first` returns and when it was the least entry

A pass of `pop_first` over the slots heads for a result: the least entry it has
copied or can still come upon, or nothing. At the start of a pass this is the least
entry of the map. Other threads can change the result a pass heads for by putting
entries in and taking them out, also to one that is not the least entry of the map,
as a smaller one may stand in a slot the pass is already behind. If nothing is put in
or taken out ahead of a pass while there is such an entry behind it, whatever is
returned was the least entry at some instant of the call.
-/

namespace BTreeMap

variable {K V : Type*}

/-- What a pass still comes upon: the slots before it, and the slot it is at if its
entry still has the version that the pass has loaded. -/
def Pc.ahead : Pc K V → ℕ → Entry K V → Prop
  | .scan _ j _, i, _ => j ≤ i
  | .check _ j version _, i, e => j < i ∨ j = i ∧ e.slotVersion = version
  | .recheck _ j version _, i, e => j < i ∨ j = i ∧ e.slotVersion = version
  | .copy _ j version _, i, e => j < i ∨ j = i ∧ e.slotVersion = version
  | _, _, _ => False

/-- A `pop_first` that looks for an entry or is about to lock its slot. -/
def Pc.Looking : Pc K V → Prop
  | .scan _ _ _ => True
  | .check _ _ _ _ => True
  | .recheck _ _ _ _ => True
  | .copy _ _ _ _ => True
  | .lock (.pop _ _) => True
  | .cas (.pop _ _) _ => True
  | _ => False

variable [LinearOrder K]

/-- The least pair in the slots, `none` if they are all empty. -/
def Least (cap : ℕ) (L : ℕ → Option (K × V)) : Option (K × V) → Prop
  | none => ∀ i, i < cap → L i = none
  | some p => (∃ i, i < cap ∧ L i = some p) ∧ ∀ i, i < cap → ∀ q ∈ L i, p.1 ≤ q.1

/-- The thread still finds the pair `q` of the map in slot `i`, the entries being `d`
and the pairs of the map being `L`. -/
def Seen (cap : ℕ) (d : ℕ → Option (Entry K V)) (L : ℕ → Option (K × V)) (p : Pc K V) (i : ℕ)
    (q : K × V) : Prop :=
  i < cap ∧ L i = some q ∧
    ∃ e, d i = some e ∧ (p.ahead i e ∨ ∃ c ∈ p.candidates, c.index = i ∧ c.Matches e)

/-- The result a `pop_first` heads for: the least pair that it still finds, if it has
copied nothing less, or nothing, if it finds no pair and has copied none. -/
def Heads (cap : ℕ) (d : ℕ → Option (Entry K V)) (L : ℕ → Option (K × V)) (p : Pc K V) :
    Option (K × V) → Prop
  | none => p.candidates = [] ∧ ∀ i q, ¬ Seen cap d L p i q
  | some q => (∃ i, Seen cap d L p i q) ∧ (∀ i q', Seen cap d L p i q' → q.1 ≤ q'.1) ∧
      ∀ c ∈ p.candidates, q.1 ≤ c.key

/-- The map holds a pair that the pass is behind and that is less than all it has copied. -/
def Misses (cap : ℕ) (d : ℕ → Option (Entry K V)) (L : ℕ → Option (K × V)) (p : Pc K V) : Prop :=
  ∃ i, i < cap ∧ ∃ q, L i = some q ∧ (∀ e, d i = some e → ¬ p.ahead i e) ∧
    ∀ c ∈ p.candidates, q.1 < c.key

/-- The result was right at some instant since thread `t` has called `pop_first`. -/
def Right (cap t : ℕ) (o : Option (K × V)) (h : History K V) : Prop :=
  Labelled.Since (fun a => a = (t, .call .popFirst)) (fun g => Least cap (live g) o) h

section Heads

variable {cap : ℕ} {d d' : ℕ → Option (Entry K V)} {L : ℕ → Option (K × V)} {p p' : Pc K V}
  {o : Option (K × V)} {q₀ : K × V}

/-- A thread that copies more, and finds the same, heads for nothing else. -/
theorem Heads.of_seen (hheads : Heads cap d L p' o)
    (hcandidates : ∀ c ∈ p.candidates, c ∈ p'.candidates)
    (hseen : ∀ i q, Seen cap d' L p i q ↔ Seen cap d L p' i q) : Heads cap d' L p o := by
  cases o with
  | none =>
      refine ⟨List.eq_nil_iff_forall_not_mem.mpr fun c hc => ?_, fun i q hq => ?_⟩
      · have hmem := hcandidates c hc
        rw [hheads.1] at hmem
        cases hmem
      · exact hheads.2 i q ((hseen i q).mp hq)
  | some q =>
      obtain ⟨⟨i, hi⟩, hle, hcs⟩ := hheads
      exact ⟨⟨i, (hseen i q).mpr hi⟩, fun j q' hq' => hle j q' ((hseen j q').mp hq'),
        fun c hc => hcs c (hcandidates c hc)⟩

/-- A thread that passes over one pair heads for nothing else, unless it has headed for
this pair. -/
theorem Heads.of_passed (hheads : Heads cap d L p' o) (hcandidates : p'.candidates = p.candidates)
    (hsub : ∀ i q, Seen cap d L p' i q → Seen cap d L p i q)
    (hlost : ∀ i q, Seen cap d L p i q → Seen cap d L p' i q ∨ q = q₀)
    (hnot : ¬ Heads cap d L p (some q₀)) : Heads cap d L p o := by
  cases o with
  | none =>
      refine ⟨hcandidates ▸ hheads.1, fun i q hq => ?_⟩
      rcases hlost i q hq with hq' | rfl
      · exact hheads.2 i q hq'
      · refine hnot ⟨⟨i, hq⟩, fun j q' hq' => ?_, fun c hc => ?_⟩
        · rcases hlost j q' hq' with hq' | rfl
          · exact absurd hq' (hheads.2 j q')
          · exact le_refl _
        · rw [← hcandidates, hheads.1] at hc
          cases hc
  | some q =>
      obtain ⟨⟨i, hi⟩, hle, hcs⟩ := hheads
      rw [hcandidates] at hcs
      refine ⟨⟨i, hsub i q hi⟩, fun j q' hq' => ?_, hcs⟩
      rcases hlost j q' hq' with hq' | rfl
      · exact hle j q' hq'
      · by_contra hlt
        have hlt := not_le.mp hlt
        refine hnot ⟨⟨j, hq'⟩, fun k q'' hq'' => ?_, fun c hc => hlt.le.trans (hcs c hc)⟩
        rcases hlost k q'' hq'' with hq'' | rfl
        · exact hlt.le.trans (hle k q'' hq'')
        · exact le_refl _

/-- A pass that misses nothing still finds what the map holds, or has copied something as
little. -/
theorem seen_or_copied {i : ℕ} {q : K × V} (hmiss : ¬ Misses cap d L p) (hi : i < cap)
    (hpair : ∃ e, d i = some e ∧ e.pair = q) (hq : L i = some q) :
    Seen cap d L p i q ∨ ∃ c ∈ p.candidates, c.key ≤ q.1 := by
  obtain ⟨e, he, -⟩ := hpair
  by_cases hahead : p.ahead i e
  · exact .inl ⟨hi, hq, e, he, .inl hahead⟩
  · right
    by_contra hgreater
    push Not at hgreater
    refine hmiss ⟨i, hi, q, hq, fun e' he' => ?_, hgreater⟩
    rw [he, Option.some.injEq] at he'
    exact he' ▸ hahead

/-- Another thread puts an entry into an empty slot. The pass heads for something else
only if it comes upon this entry and this is the least of the map. -/
theorem Heads.of_put {i : ℕ} (hheads : Heads cap d (Function.update L i (some q₀)) p o)
    (hnone : L i = none)
    (hpair : ∀ j q, j < cap → L j = some q → ∃ e, d j = some e ∧ e.pair = q)
    (hmiss : Seen cap d (Function.update L i (some q₀)) p i q₀ → ¬ Misses cap d L p) :
    Heads cap d L p o ∨ Least cap (Function.update L i (some q₀)) o := by
  have hother : ∀ j q, j ≠ i → (Seen cap d (Function.update L i (some q₀)) p j q ↔
      Seen cap d L p j q) := by
    intro j q hji
    rw [Seen, Seen, Function.update_of_ne hji]
  have hkept : ∀ j q, Seen cap d L p j q → Seen cap d (Function.update L i (some q₀)) p j q := by
    intro j q hq
    refine (hother j q ?_).mpr hq
    rintro rfl
    exact absurd (hnone.symm.trans hq.2.1) (by simp)
  cases o with
  | none => exact .inl ⟨hheads.1, fun j q hq => hheads.2 j q (hkept j q hq)⟩
  | some q =>
      obtain ⟨⟨j, hj⟩, hle, hcs⟩ := hheads
      by_cases hji : j = i
      · subst hji
        have hq : q = q₀ := by simpa using hj.2.1.symm
        subst hq
        refine .inr ⟨⟨j, hj.1, hj.2.1⟩, fun k hk q' hq' => ?_⟩
        by_cases hkj : k = j
        · subst hkj
          rw [hj.2.1] at hq'
          exact le_of_eq (congrArg Prod.fst (Option.some.inj hq'))
        · have hL : L k = some q' := by simpa [hkj] using hq'
          rcases seen_or_copied (hmiss hj) hk (hpair k q' hk hL) hL with hseen | ⟨c, hc, hkey⟩
          · exact hle k q' (hkept k q' hseen)
          · exact (hcs c hc).trans hkey
      · exact .inl ⟨⟨j, (hother j q hji).mp hj⟩, fun k q' hq' => hle k q' (hkept k q' hq'), hcs⟩

/-- Another thread takes an entry out. The pass heads for something else only if it was to
come upon this entry and now heads for the least of the map. -/
theorem Heads.of_take {i : ℕ} (hheads : Heads cap d (Function.update L i none) p o)
    (hpair : ∀ j q, j < cap → L j = some q → ∃ e, d j = some e ∧ e.pair = q)
    (hmiss : ∀ e, d i = some e → p.ahead i e → ¬ Misses cap d L p) :
    Heads cap d L p o ∨ Least cap (Function.update L i none) o := by
  have hsub : ∀ j q, Seen cap d (Function.update L i none) p j q →
      j ≠ i ∧ Seen cap d L p j q := by
    intro j q hq
    have hji : j ≠ i := by
      rintro rfl
      have hnone := hq.2.1
      simp at hnone
    refine ⟨hji, ?_⟩
    rwa [Seen, Function.update_of_ne hji] at hq
  have hkept : ∀ j q, Seen cap d L p j q → j = i ∨ Seen cap d (Function.update L i none) p j q := by
    intro j q hq
    refine or_iff_not_imp_left.mpr fun hji => ?_
    rwa [Seen, Function.update_of_ne hji]
  by_cases hahead : ∃ e, d i = some e ∧ p.ahead i e
  · obtain ⟨e, he, hahead⟩ := hahead
    have hmiss := hmiss e he hahead
    -- what is left in the map is seen, or no less than a copy
    have hrest : ∀ j q, j < cap → Function.update L i none j = some q →
        Seen cap d (Function.update L i none) p j q ∨ ∃ c ∈ p.candidates, c.key ≤ q.1 := by
      intro j q hj hq
      have hji : j ≠ i := by
        rintro rfl
        simp at hq
      rw [Function.update_of_ne hji] at hq
      refine (seen_or_copied hmiss hj (hpair j q hj hq) hq).imp_left fun hseen => ?_
      exact (hkept j q hseen).resolve_left hji
    right
    cases o with
    | none =>
        intro j hj
        by_contra hsome
        obtain ⟨q, hq⟩ := Option.ne_none_iff_exists'.mp hsome
        rcases hrest j q hj hq with hseen | ⟨c, hc, -⟩
        · exact hheads.2 j q hseen
        · rw [hheads.1] at hc
          cases hc
    | some q =>
        obtain ⟨⟨j, hj⟩, hle, hcs⟩ := hheads
        refine ⟨⟨j, hj.1, hj.2.1⟩, fun k hk q' hq' => ?_⟩
        rcases hrest k q' hk hq' with hseen | ⟨c, hc, hkey⟩
        · exact hle k q' hseen
        · exact (hcs c hc).trans hkey
  · -- the pass has copied the entry or does not find it
    left
    have hcopied : ∀ q, Seen cap d L p i q → ∃ c ∈ p.candidates, c.key = q.1 := by
      rintro q ⟨hi, hq, e, he, hfound⟩
      obtain ⟨e', he', rfl⟩ := hpair i q hi hq
      rw [he, Option.some.injEq] at he'
      subst he'
      rcases hfound with hnow | ⟨c, hc, -, hmatch⟩
      · exact absurd ⟨e, he, hnow⟩ hahead
      · exact ⟨c, hc, hmatch.1.symm⟩
    cases o with
    | none =>
        refine ⟨hheads.1, fun j q hq => ?_⟩
        rcases hkept j q hq with rfl | hseen
        · obtain ⟨c, hc, -⟩ := hcopied q hq
          rw [hheads.1] at hc
          cases hc
        · exact hheads.2 j q hseen
    | some q =>
        obtain ⟨⟨j, hj⟩, hle, hcs⟩ := hheads
        refine ⟨⟨j, (hsub j q hj).2⟩, fun k q' hq' => ?_, hcs⟩
        rcases hkept k q' hq' with rfl | hseen
        · obtain ⟨c, hc, hkey⟩ := hcopied q' hq'
          exact (hcs c hc).trans hkey.le
        · exact hle k q' hseen

/-- A new pass heads for the least entry of the map. -/
theorem Heads.scan_start {retries : ℕ} (hheads : Heads cap d L (.scan retries 0 []) o)
    (hpair : ∀ i q, i < cap → L i = some q → ∃ e, d i = some e ∧ e.pair = q) :
    Least cap L o := by
  have hseen : ∀ i q, i < cap → L i = some q → Seen cap d L (.scan retries 0 []) i q := by
    intro i q hi hq
    obtain ⟨e, he, -⟩ := hpair i q hi hq
    exact ⟨hi, hq, e, he, .inl (Nat.zero_le i)⟩
  cases o with
  | none =>
      intro i hi
      cases hL : L i with
      | none => rfl
      | some q => exact absurd (hseen i q hi hL) (hheads.2 i q)
  | some q =>
      obtain ⟨⟨i, hi, hq, -⟩, hle, -⟩ := hheads
      exact ⟨⟨i, hi, hq⟩, fun j hj q' hq' => hle j q' (hseen j q' hj hq')⟩

/-- The end of a pass: the candidate that is chosen is the one the pass heads for, if it
is still in its slot. -/
theorem scanFrom_heads {retries i : ℕ} {cs : List (Candidate K V)} {J : Option (K × V) → Prop}
    (hpair : ∀ i q, i < cap → L i = some q → ∃ e, d i = some e ∧ e.pair = q)
    (hJ : ∀ o, Heads cap d L (.scan retries i cs) o → J o) :
    (∀ o, (scanFrom cap retries i cs).1.Looking →
        Heads cap d L (scanFrom cap retries i cs).1 o → J o) ∧
      ∀ o, (scanFrom cap retries i cs).2 = .ret (.popped o) → J o := by
  unfold scanFrom
  split
  case isTrue => exact ⟨fun o _ => hJ o, fun o ha => by cases ha⟩
  case isFalse hi =>
    have hseen : ∀ {j q}, Seen cap d L (.scan retries i cs) j q →
        ∃ e, d j = some e ∧ ∃ c ∈ cs, c.index = j ∧ c.Matches e := by
      rintro j q ⟨hj, -, e, he, hahead | hmatch⟩
      · exact absurd (lt_of_le_of_lt hahead hj) hi
      · exact ⟨e, he, hmatch⟩
    cases hmin : Candidate.findMin cs with
    | none =>
        refine ⟨fun o hlooking => hlooking.elim, ?_⟩
        rintro o ⟨⟩
        have hnil : cs = [] := Candidate.findMin_eq_none.mp hmin
        refine hJ none ⟨hnil, fun j q hq => ?_⟩
        obtain ⟨-, -, c, hc, -⟩ := hseen hq
        rw [hnil] at hc
        cases hc
    | some c =>
        obtain ⟨hc, hle⟩ := Candidate.findMin_some hmin
        refine ⟨?_, fun o ha => by cases ha⟩
        intro o _ hheads
        cases o with
        | none => cases hheads.1
        | some q =>
            obtain ⟨⟨j, hj, hq, e, he, hfound⟩, -, hcs⟩ := hheads
            have hqc : q.1 ≤ c.key := hcs c (List.mem_singleton.mpr rfl)
            refine hJ _ ⟨⟨j, hj, hq, e, he, ?_⟩, ?_, fun c' hc' => hqc.trans (hle c' hc')⟩
            · rcases hfound with hahead | ⟨c', hc', hmatch⟩
              · exact hahead.elim
              · rw [List.mem_singleton.mp hc'] at hmatch
                exact .inr ⟨c, hc, hmatch⟩
            · intro k q' hq'
              obtain ⟨e', he', c', hc', -, hmatch⟩ := hseen hq'
              obtain ⟨e'', he'', rfl⟩ := hpair k q' hq'.1 hq'.2.1
              rw [he', Option.some.injEq] at he''
              rw [← he'']
              calc q.1 ≤ c.key := hqc
                _ ≤ c'.key := hle c' hc'
                _ = e'.key := hmatch.1.symm

end Heads

/-- The pair that a `pop_first` has locked for good and will return. -/
def Pc.gets (d : ℕ → Option (Entry K V)) : Pc K V → Option (K × V)
  | .verify _ c =>
      match d c.index with
      | some e => if c.Matches e then some e.pair else none
      | none => none
  | .vacate _ (.pop q) => some q
  | .uncount (.pop q) => some q
  | _ => none

theorem Pc.gets_verify {d : ℕ → Option (Entry K V)} {retries : ℕ} {c : Candidate K V}
    {e : Entry K V} (he : d c.index = some e) :
    (Pc.verify retries c).gets d = if c.Matches e then some e.pair else none := by
  simp only [gets, he]

/-- Keys are inserted once, no `pop_first` is hindered, and the step leaves every pass
over the slots on its way: another thread puts an entry in, or locks one for good, where
the pass is to come upon it only if the map holds no lesser one that the pass has missed. -/
structure Undisturbed (cap : ℕ) (h : History K V) (s : State K V) (a : ℕ × Event K V) : Prop
    extends Unhindered h s a where
  puts : ∀ t i q, t ≠ a.1 → a.2 = .stored i q →
    Seen cap s.mem.entry (live (a :: h)) (s.pc t) i q → ¬ Misses cap s.mem.entry (live h) (s.pc t)
  takes : ∀ t i e, t ≠ a.1 → a.2 = .took i → s.mem.entry i = some e → (s.pc t).ahead i e →
    ¬ Misses cap s.mem.entry (live h) (s.pc t)

/-- A `pop_first` in progress heads for what was right at some instant of its call,
and what it has taken was the least entry then. -/
structure Track (cap : ℕ) (h : History K V) (s : State K V) : Prop where
  heading : ∀ t o, (s.pc t).Looking → Heads cap s.mem.entry (live h) (s.pc t) o → Right cap t o h
  taken : ∀ t q, (s.pc t).gets s.mem.entry = some q → Right cap t (some q) h

variable {cap : ℕ} {h : History K V} {s : State K V} {t : ℕ}

/-- What a step of thread `t` itself may make of its call. -/
structure Kept (cap t : ℕ) (h : History K V) (r : Mem K V × Pc K V × Event K V) : Prop where
  heading : ∀ o, r.2.1.Looking → Heads cap r.1.entry (live ((t, r.2.2) :: h)) r.2.1 o →
    Right cap t o h
  taken : ∀ q, r.2.1.gets r.1.entry = some q → Right cap t (some q) h
  popped : ∀ o, r.2.2 = .ret (.popped o) → Right cap t o h

/-- An access after which the thread looks for nothing and has taken nothing. -/
theorem Kept.away {r : Mem K V × Pc K V × Event K V} (hlooking : ¬ r.2.1.Looking)
    (hgets : r.2.1.gets r.1.entry = none) (hpopped : ∀ o, r.2.2 ≠ .ret (.popped o)) :
    Kept cap t h r where
  heading := fun _ hlook => absurd hlook hlooking
  taken := by
    intro q hq
    rw [hgets] at hq
    cases hq
  popped := fun o ha => absurd ha (hpopped o)

/-- An access after which the thread still looks for an entry. -/
theorem Kept.look {m' : Mem K V} {p' : Pc K V} (hgets : p'.gets m'.entry = none)
    (hheads : ∀ o, Heads cap m'.entry (live h) p' o → Right cap t o h) :
    Kept cap t h (m', p', .silent) where
  heading := fun o _ => hheads o
  taken := by
    intro q hq
    rw [hgets] at hq
    cases hq
  popped := fun o ha => by cases ha

/-- An access after which the thread still has the pair it has taken. -/
theorem Kept.hold {m' : Mem K V} {p' : Pc K V} {a : Event K V} (hlooking : ¬ p'.Looking)
    (ha : ∀ o, a ≠ .ret (.popped o))
    (hgets : ∀ q, p'.gets m'.entry = some q → Right cap t (some q) h) :
    Kept cap t h (m', p', a) where
  heading := fun _ hlook => absurd hlook hlooking
  taken := hgets
  popped := fun o hr => absurd hr (ha o)

theorem Onward.kept {m' : Mem K V} {q : K × V} {r : Pc K V × Event K V}
    (honward : Onward cap (some q) r) : Kept cap t h (m', r) := by
  cases honward with
  | failed x => exact .away id rfl (by simp)
  | look x hi => exact .away id rfl (by simp)
  | claim x hi => exact .away id rfl (by simp)

theorem scanFrom_kept {m' : Mem K V} {retries i : ℕ} {cs : List (Candidate K V)}
    (hpair : ∀ i q, i < cap → live h i = some q → ∃ e, m'.entry i = some e ∧ e.pair = q)
    (hJ : ∀ o, Heads cap m'.entry (live h) (.scan retries i cs) o → Right cap t o h) :
    Kept cap t h (m', scanFrom cap retries i cs) := by
  obtain ⟨hheads, hpopped⟩ := scanFrom_heads hpair hJ
  have hquiet : live ((t, (scanFrom cap retries i cs).2) :: h) = live h := by
    unfold scanFrom
    split
    · rfl
    · split <;> rfl
  have hgets : (scanFrom cap retries i cs).1.gets m'.entry = none := by
    unfold scanFrom
    split
    · rfl
    · split <;> rfl
  refine ⟨?_, fun q hq => ?_, hpopped⟩
  · rw [hquiet]
    exact hheads
  · rw [hgets] at hq
    cases hq

/-- A new attempt looks for what is the least entry right now. -/
theorem popRetry_kept {m' : Mem K V} {retries : ℕ}
    (hpair : ∀ i q, i < cap → live h i = some q → ∃ e, m'.entry i = some e ∧ e.pair = q)
    (hretries : retries ≠ 0) : Kept cap t h (m', popRetry cap retries) := by
  cases retries with
  | zero => exact absurd rfl hretries
  | succ retries =>
      refine scanFrom_kept hpair fun o hheads => ?_
      exact .now (hheads.scan_start hpair)

section Pass

variable {d : ℕ → Option (Entry K V)} {L : ℕ → Option (K × V)} {p p' : Pc K V}
  {o : Option (K × V)} {retries i version : ℕ} {cs : List (Candidate K V)}

/-- The pass has loaded the word of a valid slot. -/
theorem Heads.of_check {e : Entry K V} (hheads : Heads cap d L (.check retries i version cs) o)
    (he : d i = some e) (hversion : e.slotVersion = version) :
    Heads cap d L (.scan retries i cs) o := by
  refine hheads.of_seen (fun c hc => hc) ?_
  intro j q
  refine and_congr_right fun _ => and_congr_right fun _ => exists_congr fun e' => ?_
  refine and_congr_right fun he' => or_congr_left ?_
  simp only [Pc.ahead]
  constructor
  · intro hle
    rcases Nat.lt_or_eq_of_le hle with hlt | rfl
    · exact .inl hlt
    · rw [he, Option.some.injEq] at he'
      exact .inr ⟨rfl, he' ▸ hversion⟩
  · rintro (hlt | ⟨rfl, -⟩)
    · exact hlt.le
    · exact le_refl _

/-- The pass stands at slot `i` with the candidates `cs`. -/
inductive At (i : ℕ) (cs : List (Candidate K V)) : Pc K V → Prop
  | scan (retries : ℕ) : At i cs (.scan retries i cs)
  | check (retries version : ℕ) : At i cs (.check retries i version cs)
  | recheck (retries version : ℕ) : At i cs (.recheck retries i version cs)
  | copy (retries version : ℕ) : At i cs (.copy retries i version cs)

omit [LinearOrder K] in
theorem At.candidates (hat : At i cs p) : p.candidates = cs := by
  cases hat <;> rfl

omit [LinearOrder K] in
theorem At.looking (hat : At i cs p) : p.Looking := by
  cases hat <;> exact trivial

omit [LinearOrder K] in
theorem At.ahead {j : ℕ} {e : Entry K V} (hat : At i cs p) (hp : p.ahead j e) :
    i + 1 ≤ j ∨ j = i := by
  cases hat <;> simp only [Pc.ahead] at hp <;> omega

omit [LinearOrder K] in
theorem At.behind {j : ℕ} {e : Entry K V} (hat : At i cs p) (hle : i + 1 ≤ j) : p.ahead j e := by
  cases hat <;> simp only [Pc.ahead] <;> omega

/-- The pass has gone over slot `i` and has found nothing of the map there. -/
theorem Heads.of_empty (hheads : Heads cap d L (.scan retries (i + 1) cs) o)
    (hat : At i cs p)
    (hnone : ∀ q e, L i = some q → d i = some e → ¬ p.ahead i e) : Heads cap d L p o := by
  refine hheads.of_seen (fun c hc => by rwa [hat.candidates] at hc) ?_
  intro j q
  refine and_congr_right fun _ => and_congr_right fun hq => exists_congr fun e => ?_
  refine and_congr_right fun he => ?_
  rw [hat.candidates]
  refine or_congr_left ⟨fun hp => ?_, hat.behind⟩
  rcases hat.ahead hp with hle | rfl
  · exact hle
  · exact absurd hp (hnone q e hq he)

/-- The pass has gone over a slot with a pair it has not headed for. -/
theorem Heads.of_locked {q₀ : K × V} (hheads : Heads cap d L (.scan retries (i + 1) cs) o)
    (hat : At i cs p)
    (hq : L i = some q₀) (hnot : ¬ Heads cap d L p (some q₀)) : Heads cap d L p o := by
  refine hheads.of_passed hat.candidates.symm ?_ ?_ hnot
  · rintro j q ⟨hj, hL, e, he, hfound⟩
    refine ⟨hj, hL, e, he, ?_⟩
    rw [hat.candidates]
    exact hfound.imp_left hat.behind
  · rintro j q ⟨hj, hL, e, he, hfound⟩
    rw [hat.candidates] at hfound
    rcases hfound with hp | hmatch
    · rcases hat.ahead hp with hle | rfl
      · exact .inl ⟨hj, hL, e, he, .inl hle⟩
      · rw [hq, Option.some.injEq] at hL
        exact .inr hL.symm
    · exact .inl ⟨hj, hL, e, he, .inr hmatch⟩

/-- The pass has copied the entry of slot `i`. -/
theorem Heads.of_copy {e : Entry K V} (he : d i = some e)
    (hheads : Heads cap d L (.scan retries (i + 1)
      (cs ++ [⟨e.key, e.value, e.insertVersion, i, version⟩])) o) :
    Heads cap d L (.copy retries i version cs) o := by
  refine hheads.of_seen (fun c hc => List.mem_append_left _ hc) ?_
  intro j q
  refine and_congr_right fun _ => and_congr_right fun _ => exists_congr fun e' => ?_
  refine and_congr_right fun he' => ?_
  simp only [Pc.ahead, Pc.candidates, List.mem_append, List.mem_singleton]
  constructor
  · rintro ((hlt | ⟨rfl, hversion⟩) | ⟨c, hc, hmatch⟩)
    · exact .inl hlt
    · rw [he, Option.some.injEq] at he'
      subst he'
      exact .inr ⟨_, .inr rfl, rfl, rfl, rfl, hversion⟩
    · exact .inr ⟨c, .inl hc, hmatch⟩
  · rintro (hlt | ⟨c, hc | rfl, hmatch⟩)
    · exact .inl (.inl hlt)
    · exact .inr ⟨c, hc, hmatch⟩
    · obtain ⟨rfl, -, -, hversion⟩ := hmatch
      exact .inl (.inr ⟨rfl, hversion⟩)

/-- A `pop_first` about to lock the slot of its candidate, which is still there. -/
theorem Heads.of_cas {c : Candidate K V} {current : Word} {e : Entry K V} (hi : c.index < cap)
    (he : d c.index = some e) (hL : L c.index = some e.pair) (hmatch : c.Matches e) :
    Heads cap d L (.cas (.pop retries c) current) (some e.pair) := by
  refine ⟨⟨c.index, hi, hL, e, he, .inr ⟨c, List.mem_singleton.mpr rfl, rfl, hmatch⟩⟩, ?_, ?_⟩
  · rintro j q ⟨-, hq, e', -, hahead | ⟨c', hc', rfl, -⟩⟩
    · exact hahead.elim
    · rw [List.mem_singleton.mp hc', hL, Option.some.injEq] at hq
      rw [hq]
  · intro c' hc'
    rw [List.mem_singleton.mp hc', ← hmatch.1]
    exact le_refl _

end Pass

/-- A pass goes over a slot in which it finds nothing to copy. -/
theorem Track.pass {retries i : ℕ} {cs : List (Candidate K V)} (htrack : Track cap h s)
    (hinv : Inv cap h s) (honce : Once h s) (hat : At i cs (s.pc t))
    (hskip : ∀ q e, live h i = some q → s.mem.entry i = some e → (s.pc t).ahead i e →
      ¬ Heads cap s.mem.entry (live h) (s.pc t) (some q)) :
    Kept cap t h (s.mem, scanFrom cap retries (i + 1) cs) := by
  refine scanFrom_kept (hinv.live_pair honce.plain) fun o hheads => ?_
  refine htrack.heading t o hat.looking ?_
  by_cases hfound : ∃ q e, live h i = some q ∧ s.mem.entry i = some e ∧ (s.pc t).ahead i e
  · obtain ⟨q, e, hq, he, hahead⟩ := hfound
    exact hheads.of_locked hat hq (hskip q e hq he hahead)
  · push Not at hfound
    exact hheads.of_empty hat hfound

/-- A pass goes over a slot in which it sees no valid entry of the version `version`, if
it has not headed for an entry that is locked there. -/
theorem Track.pass_invalid {retries i : ℕ} {cs : List (Candidate K V)}
    (htrack : Track cap h s) (hinv : Inv cap h s) (honce : Once h s) (hat : At i cs (s.pc t))
    (hi : i < cap) (hinvalid : ∀ e, (s.pc t).ahead i e → s.mem.word i ≠ ⟨e.slotVersion, .valid⟩)
    (hlocked : ∀ q, (s.mem.word i).state = .deleting → live h i = some q →
      ¬ Heads cap s.mem.entry (live h) (s.pc t) (some q)) :
    Kept cap t h (s.mem, scanFrom cap retries (i + 1) cs) := by
  refine htrack.pass hinv honce hat fun q e hq he hahead => ?_
  rcases hinv.live_word hi hq with hvalid | hdeleting
  · obtain ⟨e', hword, he', -, -⟩ := hinv.valid hi hvalid
    rw [he, Option.some.injEq] at he'
    subst he'
    exact absurd hword (hinvalid e hahead)
  · exact hlocked q hdeleting hq

theorem Track.own (htrack : Track cap h s) (hpatient : Patient h s) (hinv : Inv cap h s)
    (honce : Once h s)
    (hguard : Undisturbed cap h s (t, (tick cap s.mem (s.pc t)).2.2)) :
    Kept cap t h (tick cap s.mem (s.pc t)) := by
  have hbound := hinv.bounded t
  have hplain := honce.plain t
  have hpair := hinv.live_pair honce.plain
  have hheading := htrack.heading t
  have htaken := htrack.taken t
  have hlocked : ∀ i q, (s.pc t).visits = some i → (s.mem.word i).state = .deleting →
      live h i = some q → ¬ Heads cap s.mem.entry (live h) (s.pc t) (some q) := by
    intro i q hvisits hdeleting hq hheads
    obtain ⟨c, hc, hlt⟩ := hguard.meets i q hvisits hdeleting hq
    exact absurd (hheads.2.2 c hc) (not_le.mpr hlt)
  have htries := hpatient.finds hinv honce hguard.toUnhindered
  cases hpc : s.pc t with
  | idle => exact .away id rfl (by simp [tick])
  | enter c =>
      cases c with
      | insert key value => exact (insertFirst_onward key value _).kept
      | popFirst => exact popRetry_kept hpair (by simp)
      | clear => exact (hpc ▸ hplain : (Pc.enter .clear).Plain).elim
  | look x i =>
      rw [hpc] at hbound
      simp only [tick]
      split
      · exact .away id rfl (by simp)
      · exact (lookNext_onward hbound).kept
  | peek x i version =>
      rw [hpc] at hbound
      simp only [tick]
      split
      · split
        · exact .away id rfl (by simp)
        · exact (lookNext_onward hbound).kept
      · exact (lookNext_onward hbound).kept
  | lock j =>
      rw [hpc] at hplain hheading htries
      cases j with
      | update x i version => exact hplain.elim
      | clear i version => exact hplain.elim
      | pop retries c =>
          simp only [tick] at htries ⊢
          split
          · exact .look rfl fun o => hheading o trivial
          case isFalse hinvalid =>
            refine popRetry_kept hpair ?_
            rintro rfl
            exact htries (by rw [if_neg hinvalid]; rfl) trivial
  | cas j current =>
      rw [hpc] at hplain hheading htries hbound
      cases j with
      | update x i version => exact hplain.elim
      | clear i version => exact hplain.elim
      | pop retries c =>
          simp only [tick] at htries ⊢
          split
          case isTrue hsame =>
            subst hsame
            obtain ⟨e, hword, he, -, hlive⟩ := hinv.valid hbound.1 hbound.2
            unfold Job.locked
            split
            · refine .hold id (fun o ha => by split at ha <;> cases ha) ?_
              intro q hq
              replace hq : (Pc.verify retries c).gets s.mem.entry = some q := hq
              rw [Pc.gets_verify he] at hq
              split at hq
              case isTrue hmatch =>
                rw [← hq]
                exact hheading _ trivial (.of_cas hbound.1 he hlive hmatch)
              case isFalse => cases hq
            · exact .away id rfl fun o ha => by split at ha <;> cases ha
          case isFalse hother =>
            refine popRetry_kept hpair ?_
            rintro rfl
            exact htries (by rw [if_neg hother]; rfl) trivial
  | fetch x i => exact (hpc ▸ hplain : (Pc.fetch x i).Plain).elim
  | rewrite x i v => exact (hpc ▸ hplain : (Pc.rewrite x i v).Plain).elim
  | republish x i v => exact (hpc ▸ hplain : (Pc.republish x i v).Plain).elim
  | updated x v => exact (hpc ▸ hplain : (Pc.updated x v).Plain).elim
  | claim x i =>
      rw [hpc] at hbound
      simp only [tick]
      split
      · exact .away id rfl (by simp)
      · exact (claimNext_onward hbound).kept
  | write x i => exact .away id rfl (by simp [tick])
  | publish x i => exact .away id rfl (by simp [tick])
  | count x => exact .away id rfl (by simp [tick])
  | scan retries i cs =>
      have hi : i < cap := (hpc ▸ hbound : (Pc.scan retries i cs).Bounded cap).1
      simp only [tick]
      split
      case _ version hversion =>
        rw [Mem.getVersionIfValid_eq_some] at hversion
        obtain ⟨e, hword, he, -, -⟩ := hinv.valid hi (by rw [hversion])
        rw [hversion, Word.mk.injEq] at hword
        rw [hpc] at hheading
        exact .look rfl fun o hheads => hheading o trivial (hheads.of_check he hword.1.symm)
      case _ hnone =>
        refine htrack.pass_invalid hinv honce (hpc ▸ .scan retries) hi ?_ (hlocked i · (hpc ▸ rfl))
        intro e _ hword
        rw [Mem.getVersionIfValid_eq_some.mpr hword] at hnone
        cases hnone
  | check retries i version cs =>
      have hat : At i cs (s.pc t) := hpc ▸ .check retries version
      simp only [tick]
      split
      case _ e he =>
        split
        · rw [hpc] at hheading
          exact .look rfl fun o => hheading o trivial
        case isFalse hversion =>
          refine htrack.pass hinv honce hat fun q e' _ he' hahead => ?_
          rw [he, Option.some.injEq] at he'
          rw [hpc] at hahead
          rcases hahead with hlt | ⟨-, hsame⟩
          · exact absurd hlt (lt_irrefl i)
          · exact absurd (he' ▸ hsame) hversion
      case _ he =>
        refine htrack.pass hinv honce hat fun q e' _ he' _ => ?_
        rw [he] at he'
        cases he'
  | recheck retries i version cs =>
      have hi : i < cap := (hpc ▸ hbound : (Pc.recheck retries i version cs).Bounded cap).1
      simp only [tick]
      split
      · rw [hpc] at hheading
        exact .look rfl fun o => hheading o trivial
      case isFalse hother =>
        refine htrack.pass_invalid hinv honce (hpc ▸ .recheck retries version) hi ?_
          (hlocked i · (hpc ▸ rfl))
        intro e hahead hword
        rw [hpc] at hahead
        rcases hahead with hlt | ⟨-, rfl⟩
        · exact absurd hlt (lt_irrefl i)
        · exact hother (Mem.getVersionIfValid_eq_some.mpr hword)
  | copy retries i version cs =>
      simp only [tick]
      split
      case _ e he =>
        rw [hpc] at hheading
        exact scanFrom_kept hpair fun o hheads => hheading o trivial (hheads.of_copy he)
      case _ he =>
        refine htrack.pass hinv honce (hpc ▸ .copy retries version) fun q e' _ he' _ => ?_
        rw [he] at he'
        cases he'
  | verify retries c =>
      rw [hpc] at htaken
      simp only [tick]
      split
      case _ e he =>
        split
        case isTrue hmatch =>
          refine .hold id (by simp) ?_
          rintro q ⟨⟩
          exact htaken _ ((Pc.gets_verify he).trans (if_pos hmatch))
        · exact .away id rfl (by simp)
      · exact .away id rfl (by simp)
  | restore j lockedVersion =>
      rw [hpc] at hplain htries
      cases j with
      | update x i version => exact hplain.elim
      | clear i version => exact hplain.elim
      | pop retries c =>
          refine popRetry_kept hpair ?_
          rintro rfl
          exact htries rfl trivial
  | vacate i x =>
      rw [hpc] at hplain htaken
      cases x with
      | clear j => exact hplain.elim
      | pop q => exact .hold id (by simp) fun q' hq' => htaken q' hq'
  | uncount x =>
      rw [hpc] at hplain htaken
      cases x with
      | clear j => exact hplain.elim
      | pop q =>
          refine ⟨fun o hlooking => hlooking.elim, ?_, ?_⟩
          · rintro q' ⟨⟩
          · rintro o ⟨⟩
            exact htaken q rfl
  | sweep i => exact (hpc ▸ hplain : (Pc.sweep i).Plain).elim

theorem Right.later {u : ℕ} {a : Event K V} {o : Option (K × V)} (hright : Right cap u o h)
    (ha : (t, a) ≠ (u, .call .popFirst)) : Right cap u o ((t, a) :: h) :=
  Labelled.Since.later hright ha

/-- An access of another thread leaves what a thread has taken. -/
theorem Inv.gets_other (hinv : Inv cap h s) {u : ℕ} (hut : u ≠ t) :
    (s.pc u).gets (BTreeMap.tick cap s.mem (s.pc t)).1.entry = (s.pc u).gets s.mem.entry := by
  cases hpc : s.pc u with
  | verify retries c =>
      have hheld : (s.pc u).held = some (c.index, .check c) := by rw [hpc]; rfl
      simp only [Pc.gets, hinv.entry_other hut hheld]
  | vacate i x => cases x <;> rfl
  | uncount x => cases x <;> rfl
  | _ => rfl

/-- A step of another thread leaves a pass on its way, or has it head for the least entry of
the map. -/
theorem Undisturbed.others (hinv : Inv cap h s) (honce : Once h s)
    (hguard : Undisturbed cap h s (t, (BTreeMap.tick cap s.mem (s.pc t)).2.2)) {u : ℕ}
    {o : Option (K × V)} (hut : u ≠ t)
    (hheads : Heads cap s.mem.entry (live ((t, (BTreeMap.tick cap s.mem (s.pc t)).2.2) :: h))
      (s.pc u) o) :
    Heads cap s.mem.entry (live h) (s.pc u) o ∨
      Least cap (live ((t, (BTreeMap.tick cap s.mem (s.pc t)).2.2) :: h)) o := by
  have hpair := hinv.live_pair honce.plain
  have hputs := hguard.puts u
  have htakes := hguard.takes u
  have hempty : ∀ i q, (BTreeMap.tick cap s.mem (s.pc t)).2.2 = .stored i q → live h i = none :=
    fun i q ha => hinv.stored_empty (honce.plain t) ha
  generalize (BTreeMap.tick cap s.mem (s.pc t)).2.2 = a at hputs htakes hempty hheads ⊢
  cases a with
  | stored i q =>
      have hmiss := hputs i q hut rfl
      rw [live_stored] at hheads hmiss ⊢
      exact hheads.of_put (hempty i q rfl) hpair hmiss
  | took i =>
      rw [live_took] at hheads ⊢
      exact hheads.of_take hpair fun e he hahead => htakes i e hut rfl he hahead
  | _ => exact .inl hheads

/-- A step that leaves every `pop_first` on its way. -/
theorem Track.tick (htrack : Track cap h s) (hpatient : Patient h s) (hinv : Inv cap h s)
    (honce : Once h s)
    (hguard : Undisturbed cap h s (t, (BTreeMap.tick cap s.mem (s.pc t)).2.2)) :
    Track cap ((t, (BTreeMap.tick cap s.mem (s.pc t)).2.2) :: h)
      ⟨(BTreeMap.tick cap s.mem (s.pc t)).1,
        Function.update s.pc t (BTreeMap.tick cap s.mem (s.pc t)).2.1⟩ := by
  have hown := htrack.own hpatient hinv honce hguard
  have hcall : ∀ u, (t, (BTreeMap.tick cap s.mem (s.pc t)).2.2) ≠ (u, .call .popFirst) := by
    intro u heq
    exact (tick_turn (hinv.bounded t)).not_call .popFirst (Prod.mk.inj heq).2
  constructor
  case heading =>
    intro u o hlooking hheads
    by_cases hut : u = t
    · subst hut
      simp only [Function.update_self] at hlooking hheads
      exact (hown.heading o hlooking hheads).later (hcall u)
    · simp only [Function.update_of_ne hut] at hlooking hheads
      have hsame : Heads cap s.mem.entry
          (live ((t, (BTreeMap.tick cap s.mem (s.pc t)).2.2) :: h)) (s.pc u) o := by
        refine hheads.of_seen (fun c hc => hc) fun i q => ?_
        refine and_congr_right fun _ => and_congr_right fun hq => exists_congr fun e => ?_
        rw [hinv.entry_frame (honce.plain t) hq]
      rcases hguard.others hinv honce hut hsame with hold | hnow
      · exact (htrack.heading u o hlooking hold).later (hcall u)
      · exact .now hnow
  case taken =>
    intro u q hq
    by_cases hut : u = t
    · subst hut
      simp only [Function.update_self] at hq
      exact (hown.taken q hq).later (hcall u)
    · simp only [Function.update_of_ne hut] at hq
      rw [hinv.gets_other hut] at hq
      exact (htrack.taken u q hq).later (hcall u)

theorem Track.call {c : Call K V} (htrack : Track cap h s) :
    Track cap ((t, .call c) :: h) ⟨s.mem, Function.update s.pc t (.enter c)⟩ := by
  constructor
  case heading =>
    intro u o hlooking hheads
    have hut : u ≠ t := by
      rintro rfl
      simp only [Function.update_self] at hlooking
      exact hlooking
    simp only [Function.update_of_ne hut] at hlooking hheads
    refine (htrack.heading u o hlooking hheads).later ?_
    exact fun heq => hut (Prod.mk.inj heq).1.symm
  case taken =>
    intro u q hq
    have hut : u ≠ t := by
      rintro rfl
      simp only [Function.update_self] at hq
      cases hq
    simp only [Function.update_of_ne hut] at hq
    refine (htrack.taken u q hq).later ?_
    exact fun heq => hut (Prod.mk.inj heq).1.symm

theorem Track.of_run (hrun : (machine K V cap).RunOf (Undisturbed cap) h s) :
    Track cap h s := by
  refine hrun.invariant ?_ ?_
  · rintro _ rfl
    exact ⟨fun t o hlooking => hlooking.elim, fun t q hq => by cases hq⟩
  · intro h s a s' hprev htrack hguard hstep
    cases hstep with
    | call hidle => exact htrack.call
    | tick _ =>
        have honce := Once.of_run (hprev.mono fun _ _ _ hg => hg.distinct)
        have hpatient := Patient.of_run (hprev.mono fun _ _ _ hg => hg.toUnhindered)
        exact htrack.tick hpatient (Inv.of_run hprev) honce hguard

/-- Insertions with pairwise distinct keys, each step leaving the passes of `pop_first`
on their way: whatever a `pop_first` has returned was the least entry of the map at
some instant of the call, and if it has returned nothing the map was empty at some
instant of the call. -/
theorem pop_justified (hrun : (machine K V cap).RunOf (Undisturbed cap) h s) :
    ∀ h₁ t o h₂, h = h₁ ++ (t, .ret (.popped o)) :: h₂ → Right cap t o h₂ := by
  rintro h₁ t o h₂ rfl
  obtain ⟨s', hlast⟩ := hrun.suffix (List.suffix_append h₁ _)
  cases hlast with
  | @next _ s₁ _ _ hprev hguard hstep =>
      have honce := Once.of_run (hprev.mono fun _ _ _ hg => hg.distinct)
      generalize ha : (t, Event.ret (Ret.popped o)) = a at hstep hguard
      cases hstep with
      | call hidle => cases ha
      | tick hbusy =>
          obtain ⟨rfl, ha⟩ := Prod.mk.inj ha
          have hpatient := Patient.of_run (hprev.mono fun _ _ _ hg => hg.toUnhindered)
          exact ((Track.of_run hprev).own hpatient (Inv.of_run hprev) honce hguard).popped o
            ha.symm

instance Least.decidable [DecidableEq V] (cap : ℕ) (L : ℕ → Option (K × V)) :
    ∀ o, Decidable (Least cap L o)
  | none => inferInstanceAs (Decidable (∀ i, i < cap → L i = none))
  | some p => inferInstanceAs (Decidable ((∃ i, i < cap ∧ L i = some p) ∧
      ∀ i, i < cap → ∀ q ∈ L i, p.1 ≤ q.1))

instance Right.decidable [DecidableEq V] (cap t : ℕ) (o : Option (K × V)) (h : History K V) :
    Decidable (Right cap t o h) :=
  inferInstanceAs (Decidable (Labelled.Since _ _ h))

instance Pc.ahead.decidable (p : Pc K V) (i : ℕ) (e : Entry K V) : Decidable (p.ahead i e) :=
  match p with
  | .scan _ j _ => inferInstanceAs (Decidable (j ≤ i))
  | .check _ j version _ => inferInstanceAs (Decidable (j < i ∨ j = i ∧ e.slotVersion = version))
  | .recheck _ j version _ => inferInstanceAs (Decidable (j < i ∨ j = i ∧ e.slotVersion = version))
  | .copy _ j version _ => inferInstanceAs (Decidable (j < i ∨ j = i ∧ e.slotVersion = version))
  | .idle | .enter _ | .look _ _ | .peek _ _ _ | .lock _ | .cas _ _ | .fetch _ _
  | .rewrite _ _ _ | .republish _ _ _ | .updated _ _ | .claim _ _ | .write _ _ | .publish _ _
  | .count _ | .verify _ _ | .restore _ _ | .vacate _ _ | .uncount _ | .sweep _ => .isFalse id

instance Seen.decidable [DecidableEq V] (cap : ℕ) (d : ℕ → Option (Entry K V))
    (L : ℕ → Option (K × V)) (p : Pc K V) (i : ℕ) (q : K × V) : Decidable (Seen cap d L p i q) :=
  inferInstanceAs (Decidable (i < cap ∧ L i = some q ∧
    ∃ e ∈ d i, p.ahead i e ∨ ∃ c ∈ p.candidates, c.index = i ∧ c.Matches e))

instance Misses.decidable (cap : ℕ) (d : ℕ → Option (Entry K V)) (L : ℕ → Option (K × V))
    (p : Pc K V) : Decidable (Misses cap d L p) :=
  inferInstanceAs (Decidable (∃ i, i < cap ∧ ∃ q ∈ L i, (∀ e ∈ d i, ¬ p.ahead i e) ∧
    ∀ c ∈ p.candidates, q.1 < c.key))

def Event.puts : Event K V → Option (ℕ × (K × V))
  | .stored i q => some (i, q)
  | _ => none

def Event.takes : Event K V → Option ℕ
  | .took i => some i
  | _ => none

/-- The step is one of a thread below `n`, and it leaves the passes of these threads on
their way. -/
def UndisturbedAmong (n cap : ℕ) (h : History K V) (s : State K V) (a : ℕ × Event K V) : Prop :=
  a.1 < n ∧ Distinct h s a ∧
    (∀ i ∈ (s.pc a.1).visits, (s.mem.word i).state = .deleting →
      ∀ q ∈ live h i, ∃ c ∈ (s.pc a.1).candidates, c.key < q.1) ∧
    ∀ t, t < n → t ≠ a.1 →
      (∀ x ∈ a.2.puts, Seen cap s.mem.entry (live (a :: h)) (s.pc t) x.1 x.2 →
        ¬ Misses cap s.mem.entry (live h) (s.pc t)) ∧
      ∀ i ∈ a.2.takes, ((s.pc t).attempts ≠ none → takenSince t h < 15) ∧
        ∀ e ∈ s.mem.entry i, (s.pc t).ahead i e → ¬ Misses cap s.mem.entry (live h) (s.pc t)

instance [DecidableEq V] (n cap : ℕ) (h : History K V) (s : State K V) (a : ℕ × Event K V) :
    Decidable (UndisturbedAmong n cap h s a) :=
  inferInstanceAs (Decidable (_ ∧ _ ∧ _ ∧ _))

theorem UndisturbedAmong.undisturbed {n : ℕ}
    (hrun : (machine K V cap).RunOf (UndisturbedAmong n cap) h s) :
    (machine K V cap).RunOf (Undisturbed cap) h s := by
  refine hrun.upgrade fun h s a s' hprev _ hamong _ => ?_
  have hidle : ∀ t, n ≤ t → s.pc t = .idle := by
    intro t ht
    refine idle_of_untouched hprev fun a ha => ?_
    have hlt := hprev.all_labels (fun _ _ _ hg => hg.1) a ha
    exact (lt_of_lt_of_le hlt ht).ne
  obtain ⟨-, hdistinct, hmeets, hothers⟩ := hamong
  refine ⟨⟨hdistinct, fun i q hi hdeleting hq => hmeets i hi hdeleting q hq, ?_⟩, ?_, ?_⟩
  · intro t i hne ha hbusy
    rcases lt_or_ge t n with hlt | hge
    · exact ((hothers t hlt hne).2 i (by rw [ha]; rfl)).1 hbusy
    · rw [hidle t hge] at hbusy
      exact absurd rfl hbusy
  · intro t i q hne ha hseen
    rcases lt_or_ge t n with hlt | hge
    · exact (hothers t hlt hne).1 (i, q) (by rw [ha]; rfl) hseen
    · rw [hidle t hge] at hseen
      obtain ⟨-, -, e, -, hahead | ⟨c, hc, -⟩⟩ := hseen
      · exact hahead.elim
      · cases hc
  · intro t i e hne ha he hahead
    rcases lt_or_ge t n with hlt | hge
    · exact ((hothers t hlt hne).2 i (by rw [ha]; rfl)).2 e he hahead
    · rw [hidle t hge] at hahead
      exact hahead.elim

/-- Thread `1` has copied the entry of the first of three slots when thread `0` stores an
entry in the third and thread `2` locks that of the second for good. -/
def crossed : List (Choice ℕ ℕ) :=
  .invoke 0 (.insert 5 50) :: goes 0 8 ++ .invoke 0 (.insert 1 10) :: goes 0 10 ++
    .invoke 1 .popFirst :: goes 1 5 ++ .invoke 0 (.insert 7 70) :: goes 0 11 ++
    .invoke 2 .popFirst :: goes 2 15 ++ goes 1 10

/-- Three calls overlap: a `pop_first` returns an entry that has become the least one
meanwhile. -/
theorem pop_justified_crossed : ∃ (h : History ℕ ℕ) (s : State ℕ ℕ) (h₂ : History ℕ ℕ),
    (machine ℕ ℕ 3).RunOf (Undisturbed 3) h s ∧
      h = (1, .ret (.popped (some (5, 50)))) :: h₂ ∧ Right 3 1 (some (5, 50)) h₂ := by
  let r := (playAll 3 (UndisturbedAmong (K := ℕ) (V := ℕ) 3 3) crossed).get (by decide)
  have hrun : (machine ℕ ℕ 3).RunOf (UndisturbedAmong 3 3) r.1 r.2 :=
    playAll_run (Option.some_get _).symm
  have hcons : r.1 = [] ++ (1, .ret (.popped (some (5, 50)))) :: r.1.tail := by decide
  have hcalm := UndisturbedAmong.undisturbed hrun
  generalize r.1 = h, r.2 = s at hcalm hcons
  exact ⟨h, s, h.tail, hcalm, hcons, pop_justified hcalm [] 1 (some (5, 50)) h.tail hcons⟩

/-- Thread `1` has gone over the first of two slots when thread `0` stores an entry there
and thread `2` takes the entry out of the other. -/
def overtaken : List (Choice ℕ ℕ) :=
  .invoke 0 (.insert 1 10) :: goes 0 7 ++ .invoke 0 (.insert 5 50) :: goes 0 9 ++
    .invoke 0 .popFirst :: goes 0 14 ++ .invoke 1 .popFirst :: goes 1 2 ++
    .invoke 0 (.insert 7 70) :: goes 0 8 ++ .invoke 2 .popFirst :: goes 2 14 ++ [.access 1]

/-- A `pop_first` returns nothing although the map is never empty meanwhile. -/
theorem pop_unjustified : ∃ (h : History ℕ ℕ) (s : State ℕ ℕ) (h₂ : History ℕ ℕ),
    (machine ℕ ℕ 2).RunOf Distinct h s ∧
      h = (1, .ret (.popped none)) :: h₂ ∧ ¬ Right 2 1 none h₂ := by
  let r := (playAll 2 (Distinct (K := ℕ) (V := ℕ)) overtaken).get (by decide)
  have hrun : (machine ℕ ℕ 2).RunOf Distinct r.1 r.2 := playAll_run (Option.some_get _).symm
  exact ⟨r.1, r.2, r.1.tail, hrun, by decide, by decide⟩

end BTreeMap
