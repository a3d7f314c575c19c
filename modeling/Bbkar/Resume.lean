import Bbkar.PlanLoop

/-!
# Resuming an interrupted plan

A run that stops after some steps has added their archives, and the next run plans anew
from them. The set and the depths it starts from are those the loop had reached. The last
full send is not: the loop sets it to the snapshot just planned, which may be older than a
full archive on the destination, while a new plan starts from the most recent one.
-/
namespace Bbkar
open ParentForest Function KeySort

/-! ## The most recent full archive -/

/-- The later of two optional timestamps. -/
def laterFull : Option Timestamp → Option Timestamp → Option Timestamp
  | none, b => b
  | some a, none => some a
  | some a, some b => some (max a b)

@[simp] theorem laterFull_self (a : Option Timestamp) : laterFull a a = a := by
  cases a <;> simp [laterFull]

/-- A middle value that one of the others reaches does not count. -/
theorem laterFull_absorb {f l : Option Timestamp} {s : Timestamp}
    (h : ∀ t, l = some t → t ≤ s ∨ ∃ u, f = some u ∧ t ≤ u) :
    laterFull (laterFull f l) (some s) = laterFull f (some s) := by
  cases l with
  | none => cases f <;> rfl
  | some t =>
    rcases h t rfl with hs | ⟨u, rfl, hu⟩
    · cases f with
      | none => simp [laterFull, hs]
      | some u => simp [laterFull, max_assoc, hs]
    · simp [laterFull, hu]

/-- `o` is the timestamp of the most recent full archive, if there is a full one at all. -/
def IsLastFull (archives : List VolumeArchive) (o : Option Timestamp) : Prop :=
  (∀ a ∈ archives, a.isIncremental = false → ∃ t, o = some t ∧ a.timestamp ≤ t) ∧
    ∀ t, o = some t → ∃ a ∈ archives, a.isIncremental = false ∧ a.timestamp = t

theorem IsLastFull.unique {archives : List VolumeArchive} {o o' : Option Timestamp}
    (h : IsLastFull archives o) (h' : IsLastFull archives o') : o = o' := by
  have key : ∀ {p q : Option Timestamp}, IsLastFull archives p → IsLastFull archives q →
      ∀ t, p = some t → ∃ u, q = some u ∧ t ≤ u := by
    rintro p q hp hq t ht
    obtain ⟨a, ha, hfull, rfl⟩ := hp.2 t ht
    exact hq.1 a ha hfull
  cases o with
  | none =>
    cases o' with
    | none => rfl
    | some u => obtain ⟨_, hn, _⟩ := key h' h u rfl; simp at hn
  | some t =>
    obtain ⟨u, rfl, htu⟩ := key h h' t rfl
    obtain ⟨v, hv, huv⟩ := key h' h u rfl
    obtain rfl := Option.some.inj hv
    rw [le_antisymm htu huv]

/-- On a sorted list the last full archive is the most recent one. -/
theorem lastFullOf_isLastFull {archives : List VolumeArchive}
    (hs : archives.Pairwise (fun a b => a.timestamp ≤ b.timestamp)) :
    IsLastFull archives (lastFullOf archives) := by
  unfold lastFullOf
  cases h : archives.reverse.find? (fun a => !a.isIncremental) with
  | none =>
    refine ⟨?_, by simp⟩
    intro a ha hfull
    have := List.find?_eq_none.mp h a (List.mem_reverse.mpr ha)
    simp [hfull] at this
  | some a =>
    obtain ⟨ha, hfull, hmax⟩ := find?_reverse_greatest (·.timestamp) _ _ _ hs h
    refine ⟨fun b hb hb' => ⟨a.timestamp, rfl, hmax b hb (by simp [hb'])⟩, ?_⟩
    intro t ht
    exact ⟨a, ha, by simpa using hfull, Option.some.inj ht⟩

theorem lastFullOf_addArchive (m : DestMeta) (a : VolumeArchive) :
    lastFullOf (m.addArchive a).archives =
      if a.isIncremental then lastFullOf m.archives
      else laterFull (lastFullOf m.archives) (some a.timestamp) := by
  refine (lastFullOf_isLastFull (DestMeta.sorted _)).unique ?_
  obtain ⟨hmax, hmem⟩ := lastFullOf_isLastFull m.sorted
  cases ha : a.isIncremental with
  | true =>
    refine ⟨?_, ?_⟩
    · intro b hb hfull
      rcases (DestMeta.mem_addArchive m a b).mp hb with rfl | hb
      · simp [ha] at hfull
      · exact hmax b hb hfull
    · intro t ht
      obtain ⟨b, hb, hfull, hbt⟩ := hmem t ht
      exact ⟨b, (DestMeta.mem_addArchive m a b).mpr (Or.inr hb), hfull, hbt⟩
  | false =>
    simp only [Bool.false_eq_true, if_false]
    cases hl : lastFullOf m.archives with
    | none =>
      refine ⟨?_, ?_⟩
      · intro b hb hfull
        rcases (DestMeta.mem_addArchive m a b).mp hb with rfl | hb
        · exact ⟨_, rfl, le_rfl⟩
        · obtain ⟨t, ht, _⟩ := hmax b hb hfull
          simp [hl] at ht
      · intro t ht
        exact ⟨a, by simp, ha, Option.some.inj ht⟩
    | some u =>
      refine ⟨?_, ?_⟩
      · intro b hb hfull
        refine ⟨_, rfl, ?_⟩
        rcases (DestMeta.mem_addArchive m a b).mp hb with rfl | hb
        · exact le_max_right _ _
        · obtain ⟨t, ht, hbt⟩ := hmax b hb hfull
          obtain rfl : u = t := by rw [hl] at ht; exact Option.some.inj ht
          exact hbt.trans (le_max_left _ _)
      · intro t ht
        obtain rfl : max u a.timestamp = t := Option.some.inj ht
        rcases le_total u a.timestamp with h | h
        · exact ⟨a, by simp, ha, (max_eq_right h).symm⟩
        · obtain ⟨b, hb, hfull, hbu⟩ := hmem u hl
          exact ⟨b, (DestMeta.mem_addArchive m a b).mpr (Or.inr hb), hfull,
            hbu.trans (max_eq_left h).symm⟩

/-! ## The metadata after some steps -/

/-- Adding the archives of executed steps, with whatever chunks were written for them. -/
def DestMeta.addSteps (m : DestMeta) (chunksOf : RunStep → List ChunkFilename)
    (steps : List RunStep) : DestMeta :=
  steps.foldl (fun m step => m.addArchive (step.archive (chunksOf step))) m

@[simp] theorem DestMeta.addSteps_cons (m : DestMeta)
    (chunksOf : RunStep → List ChunkFilename) (step : RunStep) (steps : List RunStep) :
    m.addSteps chunksOf (step :: steps) =
      (m.addArchive (step.archive (chunksOf step))).addSteps chunksOf steps := rfl

/-- What ties the loop variables to the metadata after the steps planned so far. The last
full send is only known up to the later of it and the most recent full archive `F`. -/
structure Follows (F : Option Timestamp) (m : DestMeta) (st : PlanState)
    (snaps : List Timestamp) : Prop where
  tracks : Tracks m.archives st
  lastFull : lastFullOf m.archives = laterFull F st.lastFull
  bound : ∀ s ∈ snaps, ∀ t, st.lastFull = some t → t ≤ s ∨ ∃ u, F = some u ∧ t ≤ u

theorem Follows.cons_tail {F : Option Timestamp} {m : DestMeta} {st : PlanState}
    {snap : Timestamp} {snaps : List Timestamp} (h : Follows F m st (snap :: snaps)) :
    Follows F m st snaps :=
  ⟨h.tracks, h.lastFull, fun s hs => h.bound s (List.mem_cons_of_mem _ hs)⟩

theorem Follows.full {F : Option Timestamp} {m : DestMeta} {st : PlanState}
    {snap : Timestamp} {snaps : List Timestamp} (h : Follows F m st (snap :: snaps))
    (hs : (snap :: snaps).Pairwise (· ≤ ·)) (hin : snap.raw ∉ st.destSet)
    (chunks : List ChunkFilename) :
    Follows F (m.addArchive ((RunStep.sendFull snap).archive chunks)) (st.full snap) snaps := by
  refine ⟨(h.tracks.full hin chunks).perm (DestMeta.addArchive_perm m _).symm, ?_, ?_⟩
  · rw [lastFullOf_addArchive]
    simp only [RunStep.archive, VolumeArchive.isIncremental, RunStep.parentRaw_sendFull,
      Option.isSome_none, Bool.false_eq_true, if_false, PlanState.full, RunStep.snap_sendFull]
    rw [h.lastFull]
    exact laterFull_absorb (h.bound snap (by simp))
  · intro s hs' t ht
    obtain rfl : snap = t := Option.some.inj ht
    exact Or.inl ((List.pairwise_cons.mp hs).1 s hs')

theorem Follows.incremental {F : Option Timestamp} {m : DestMeta} {st : PlanState}
    {snap p : Timestamp} {snaps : List Timestamp} (h : Follows F m st (snap :: snaps))
    (hin : snap.raw ∉ st.destSet) (hp : p.raw ∈ st.destSet) (hlt : p.raw < snap.raw)
    (chunks : List ChunkFilename) :
    Follows F (m.addArchive ((RunStep.sendIncremental snap p).archive chunks))
      (st.incremental snap p) snaps := by
  refine ⟨(h.tracks.incremental hin hp hlt chunks).perm (DestMeta.addArchive_perm m _).symm,
    ?_, h.cons_tail.bound⟩
  rw [lastFullOf_addArchive]
  simpa [RunStep.archive, VolumeArchive.isIncremental, PlanState.incremental] using h.lastFull

/-- The metadata with the archives of the planned steps follows the loop variables. -/
theorem Planned.follows {policy : SendPolicy} {src : SourceState} (hsrc : src.Parsed)
    {F : Option Timestamp} {st st' : PlanState} {pre rest : List Timestamp}
    {steps : List RunStep} (h : Planned policy src st pre steps st')
    (hmem : ∀ s ∈ pre, s ∈ src.snapshots) (hsorted : (pre ++ rest).Pairwise (· ≤ ·))
    (chunksOf : RunStep → List ChunkFilename) {m : DestMeta}
    (hf : Follows F m st (pre ++ rest)) : Follows F (m.addSteps chunksOf steps) st' rest := by
  induction h generalizing m with
  | nil => exact hf
  | skip _ _ ih =>
    exact ih (fun s hs => hmem s (List.mem_cons_of_mem _ hs)) (List.pairwise_cons.mp hsorted).2
      hf.cons_tail
  | @full st snap _ _ _ hin _ _ ih =>
    exact ih (fun s hs => hmem s (List.mem_cons_of_mem _ hs)) (List.pairwise_cons.mp hsorted).2
      (hf.full hsorted hin (chunksOf (.sendFull snap)))
  | @incremental st snap p _ _ _ hin why _ ih =>
    obtain ⟨hpm, hlt, hpd, _⟩ := findParentCandidate_some why.candidate
    have hraw : p.raw < snap.raw :=
      ((hsrc p hpm).lt_iff (hsrc snap (hmem snap (by simp)))).mp hlt
    exact ih (fun s hs => hmem s (List.mem_cons_of_mem _ hs)) (List.pairwise_cons.mp hsorted).2
      (hf.incremental hin hpd hraw (chunksOf (.sendIncremental snap p)))

/-! ## The resumed plan -/

/-- The loop variables of the resumed plan, against those of the uninterrupted one. -/
structure Resumed (F : Option Timestamp) (r st : PlanState) : Prop where
  destSet : r.destSet = st.destSet
  depthCache : r.depthCache = st.depthCache
  lastFull : r.lastFull = st.lastFull ∨ r.lastFull = laterFull F st.lastFull

/-- A new plan starts with the set and the depths the loop had, and with the later of `F`
and the last full send the loop had. -/
theorem Follows.initialPlanState {F : Option Timestamp} {m : DestMeta} {st : PlanState}
    {snaps : List Timestamp} (h : Follows F m st snaps) :
    ∃ r, Bbkar.initialPlanState m.archives = .ok r ∧ Resumed F r st ∧
      r.lastFull = laterFull F st.lastFull ∧ r.steps = [] := by
  obtain ⟨cache, hc⟩ := depthCacheOf_isOk h.tracks.wf.acyclic
  have hcache : cache = st.depthCache :=
    (depthCacheOf_depths h.tracks.wf hc).unique h.tracks.depths
  refine ⟨_, by rw [Bbkar.initialPlanState, hc]; rfl, ⟨?_, hcache, Or.inr h.lastFull⟩,
    h.lastFull, rfl⟩
  exact h.tracks.destSet.symm

/-- Wherever the loop has a candidate, the decision would be the same with the later of
`F` and the last full send in place of the last full send. -/
def DecisionsAgree (F : Option Timestamp) (policy : SendPolicy) (src : SourceState)
    (st : PlanState) (snaps : List Timestamp) : Prop :=
  ∀ pre snap post stp p, snaps = pre ++ snap :: post → planLoop policy src pre st = .ok stp →
    snap.raw ∉ stp.destSet →
    findParentCandidate snap stp.destSet (srcNamesOf src) src = some p →
    decideFull policy stp (laterFull F stp.lastFull) snap p =
      decideFull policy stp stp.lastFull snap p

theorem DecisionsAgree.tail {F : Option Timestamp} {policy : SendPolicy} {src : SourceState}
    {st st' : PlanState} {snap : Timestamp} {snaps : List Timestamp}
    (h : DecisionsAgree F policy src st (snap :: snaps))
    (hs : planSnapshot policy src (srcNamesOf src) st snap = .ok st') :
    DecisionsAgree F policy src st' snaps := by
  intro pre s post stp p hsplit hl
  refine h (snap :: pre) s post stp p (by simp [hsplit]) ?_
  rw [planLoop_cons, hs]
  exact hl

theorem DecisionsAgree.drop {F : Option Timestamp} {policy : SendPolicy} {src : SourceState}
    {st stk : PlanState} {pre rest : List Timestamp}
    (h : DecisionsAgree F policy src st (pre ++ rest))
    (hl : planLoop policy src pre st = .ok stk) : DecisionsAgree F policy src stk rest := by
  intro pre' s post stp p hsplit hl'
  refine h (pre ++ pre') s post stp p (by simp [hsplit]) ?_
  rw [planLoop_append, hl]
  exact hl'

theorem decideFull_congr {policy : SendPolicy} {r st : PlanState}
    (h : r.depthCache = st.depthCache) (o : Option Timestamp) (snap p : Timestamp) :
    decideFull policy r o snap p = decideFull policy st o snap p := by
  simp only [decideFull, PlanState.depthOf, h]

theorem Resumed.decideFull_eq {F : Option Timestamp} {policy : SendPolicy} {r st : PlanState}
    (h : Resumed F r st) {snap p : Timestamp}
    (hagree : decideFull policy st (laterFull F st.lastFull) snap p =
      decideFull policy st st.lastFull snap p) :
    decideFull policy r r.lastFull snap p = decideFull policy st st.lastFull snap p := by
  rw [decideFull_congr h.depthCache]
  rcases h.lastFull with hl | hl
  · rw [hl]
  · rw [hl, hagree]

/-- Where the decisions agree the resumed loop plans the same steps. -/
theorem Planned.resume {F : Option Timestamp} {policy : SendPolicy} {src : SourceState}
    {st st' r : PlanState} {snaps : List Timestamp} {steps : List RunStep}
    (h : Planned policy src st snaps steps st') (hr : Resumed F r st)
    (hagree : DecisionsAgree F policy src st snaps) :
    ∃ r', planLoop policy src snaps r = .ok r' ∧ r'.steps = r.steps ++ steps := by
  induction h generalizing r with
  | nil => exact ⟨r, rfl, by simp⟩
  | skip hin _ ih =>
    obtain ⟨r', hl, hsteps⟩ := ih hr (hagree.tail (planSnapshot_skip hin))
    refine ⟨r', ?_, hsteps⟩
    rw [planLoop_cons, planSnapshot_skip (hr.destSet ▸ hin)]
    exact hl
  | @full st snap _ _ _ hin why _ ih =>
    have hin' : snap.raw ∉ r.destSet := hr.destSet ▸ hin
    have hstep : planSnapshot policy src (srcNamesOf src) st snap = .ok (st.full snap) ∧
        planSnapshot policy src (srcNamesOf src) r snap = .ok (r.full snap) := by
      rcases why.eq with hp | ⟨p, hp, hd⟩
      · exact ⟨planSnapshot_no_parent hin hp, planSnapshot_no_parent hin' (hr.destSet ▸ hp)⟩
      · have hd' := hr.decideFull_eq (hagree [] snap _ _ p rfl rfl hin hp)
        rw [planSnapshot_candidate hin hp, planSnapshot_candidate hin' (hr.destSet ▸ hp), hd',
          hd]
        exact ⟨rfl, rfl⟩
    have hnext : Resumed F (r.full snap) (st.full snap) :=
      ⟨by simp [PlanState.full, hr.destSet], by simp [PlanState.full, hr.depthCache], Or.inl rfl⟩
    obtain ⟨r', hl, hsteps⟩ := ih hnext (hagree.tail hstep.1)
    refine ⟨r', ?_, by simp [hsteps, PlanState.full]⟩
    rw [planLoop_cons, hstep.2]
    exact hl
  | @incremental st snap p _ _ _ hin why _ ih =>
    have hin' : snap.raw ∉ r.destSet := hr.destSet ▸ hin
    have hp := why.candidate
    have hd' := hr.decideFull_eq (hagree [] snap _ _ p rfl rfl hin hp)
    have hst : planSnapshot policy src (srcNamesOf src) st snap =
        .ok (st.incremental snap p) := by
      rw [planSnapshot_candidate hin hp, why.eq]
      rfl
    have hrs : planSnapshot policy src (srcNamesOf src) r snap = .ok (r.incremental snap p) := by
      rw [planSnapshot_candidate hin' (hr.destSet ▸ hp), hd', why.eq]
      rfl
    have hnext : Resumed F (r.incremental snap p) (st.incremental snap p) :=
      ⟨by simp [PlanState.incremental, hr.destSet],
        by simp [PlanState.incremental, PlanState.depthOf, hr.depthCache], hr.lastFull⟩
    obtain ⟨r', hl, hsteps⟩ := ih hnext (hagree.tail hst)
    refine ⟨r', ?_, by simp [hsteps, PlanState.incremental]⟩
    rw [planLoop_cons, hrs]
    exact hl

/-- The first step a loop plans tells the decision it made. -/
theorem decideFull_of_steps {policy : SendPolicy} {src : SourceState} {st r st' r' : PlanState}
    {snap p : Timestamp} {post : List Timestamp} {steps : List RunStep}
    (hin : snap.raw ∉ st.destSet)
    (hp : findParentCandidate snap st.destSet (srcNamesOf src) src = some p)
    (hset : r.destSet = st.destSet)
    (hst : planLoop policy src (snap :: post) st = .ok st') (hsts : st'.steps = st.steps ++ steps)
    (hrs : planLoop policy src (snap :: post) r = .ok r') (hrss : r'.steps = r.steps ++ steps) :
    decideFull policy r r.lastFull snap p = decideFull policy st st.lastFull snap p := by
  have first : ∀ {q q' : PlanState}, snap.raw ∉ q.destSet →
      findParentCandidate snap q.destSet (srcNamesOf src) src = some p →
      planLoop policy src (snap :: post) q = .ok q' → q'.steps = q.steps ++ steps →
      ∃ b, decideFull policy q q.lastFull snap p = .ok b ∧
        steps.head? = some (if b = true then .sendFull snap else .sendIncremental snap p) := by
    intro q q' hq hqp hl hqs
    rw [planLoop_cons, planSnapshot_candidate hq hqp] at hl
    cases hd : decideFull policy q q.lastFull snap p with
    | error e => simp [hd, Except.map, Except.bind] at hl
    | ok b =>
      refine ⟨b, rfl, ?_⟩
      simp only [hd, Except.map, Except.bind] at hl
      obtain ⟨more, hmore, _⟩ := planLoop_planned hl
      rw [hqs] at hmore
      cases b with
      | true =>
        simp only [if_true, PlanState.full, List.append_assoc, List.append_cancel_left_eq] at hmore
        simp [hmore]
      | false =>
        simp only [Bool.false_eq_true, if_false, PlanState.incremental, List.append_assoc,
          List.append_cancel_left_eq] at hmore
        simp [hmore]
  obtain ⟨b, hb, hhead⟩ := first hin hp hst hsts
  obtain ⟨c, hc, hhead'⟩ := first (hset ▸ hin) (hset ▸ hp) hrs hrss
  rw [hb, hc]
  rw [hhead] at hhead'
  cases b <;> cases c <;> simp_all

/-- Planning from the metadata after the first `k` steps gives the remaining steps. -/
def Resumable (src : SourceState) (m : DestMeta) (policy : SendPolicy)
    (steps : List RunStep) : Prop :=
  ∀ (chunksOf : RunStep → List ChunkFilename) (k : ℕ),
    buildPlan src ⟨some (m.addSteps chunksOf (steps.take k))⟩ policy = .ok ⟨steps.drop k⟩

/-- Wherever the loop has set its last full send back to a snapshot `l` older than the most
recent full archive `f`, the decision for the next snapshot is the same from `l` and `f`. -/
def LoopHarmless (src : SourceState) (m : DestMeta) (policy : SendPolicy) : Prop :=
  ∀ st, initialPlanState m.archives = .ok st → ∀ pre snap post stp p f l,
    src.snapshots = pre ++ snap :: post → planLoop policy src pre st = .ok stp →
    snap.raw ∉ stp.destSet →
    findParentCandidate snap stp.destSet (srcNamesOf src) src = some p →
    lastFullOf m.archives = some f → stp.lastFull = some l → l < f →
    decideFull policy stp (some f) snap p = decideFull policy stp (some l) snap p

/-- Where the loop did not set it back, its last full send is the later of the two. -/
theorem loopHarmless_iff {src : SourceState} {m : DestMeta} {policy : SendPolicy}
    {st : PlanState} (hi : initialPlanState m.archives = .ok st) :
    LoopHarmless src m policy ↔
      DecisionsAgree (lastFullOf m.archives) policy src st src.snapshots := by
  constructor
  · intro h pre snap post stp p hsplit hl hin hp
    cases hF : lastFullOf m.archives with
    | none => cases stp.lastFull <;> rfl
    | some f =>
      cases hL : stp.lastFull with
      | none =>
        obtain ⟨_, _, hpl⟩ := planLoop_planned hl
        rcases hpl.lastFull_cases with hc | ⟨_, _, _, _, hc⟩
        · rw [hL, (initialPlanState_ok hi).2.2.1, hF] at hc
          simp at hc
        · rw [hL] at hc
          simp at hc
      | some l =>
        rcases lt_or_ge l f with hlt | hle
        · rw [laterFull, max_eq_left hlt.le]
          exact h st hi pre snap post stp p f l hsplit hl hin hp hF hL hlt
        · rw [laterFull, max_eq_right hle]
  · intro h st' hi' pre snap post stp p f l hsplit hl hin hp hF hL hlt
    obtain rfl : st = st' := by rw [hi] at hi'; exact Except.ok.inj hi'
    have hd := h pre snap post stp p hsplit hl hin hp
    rw [hF, hL, laterFull, max_eq_left hlt.le] at hd
    exact hd

theorem initial_follows {m : DestMeta} (hw : WellFormed m.archives) {st : PlanState}
    (h : initialPlanState m.archives = .ok st) (snaps : List Timestamp) :
    Follows (lastFullOf m.archives) m st snaps := by
  have hl : st.lastFull = lastFullOf m.archives := (initialPlanState_ok h).2.2.1
  refine ⟨initialPlanState_tracks hw h, by rw [hl, laterFull_self], ?_⟩
  intro s _ t ht
  exact Or.inr ⟨t, by rw [← hl, ht], le_rfl⟩

/-- A plan can be resumed after every step exactly when setting the last full send back
never changes a decision. -/
theorem resumable_iff_loopHarmless {src : SourceState} (hsrc : src.Parsed) {m : DestMeta}
    (hw : WellFormed m.archives) {policy : SendPolicy} {plan : RunPlan}
    (h : buildPlan src ⟨some m⟩ policy = .ok plan) :
    Resumable src m policy plan.steps ↔ LoopHarmless src m policy := by
  obtain ⟨st, stEnd, hi, hp⟩ := buildPlan_planned h
  change initialPlanState m.archives = .ok st at hi
  rw [loopHarmless_iff hi]
  have hf : Follows (lastFullOf m.archives) m st src.snapshots := initial_follows hw hi _
  constructor
  · intro hres pre snap post stp p hsplit hl hin hcand
    obtain ⟨steps, hsteps, hpre⟩ := planLoop_planned hl
    -- the rest of the uninterrupted loop, and the steps it plans
    have hrest : planLoop policy src (snap :: post) stp = .ok stEnd := by
      have hall := hp.planLoop_eq
      rw [hsplit, planLoop_append, hl] at hall
      exact hall
    obtain ⟨more, hmore, _⟩ := planLoop_planned hrest
    have hplan : plan.steps = steps ++ more := by
      have he := hp.steps_eq
      rw [hmore, hsteps, List.append_assoc] at he
      exact (List.append_cancel_left he).symm
    rw [hsplit] at hf
    have hfp := hpre.follows hsrc (fun s hs => by rw [hsplit]; simp [hs])
      (hsplit ▸ src.volume.sorted) (fun _ => []) hf
    obtain ⟨r, hri, hrr, hrl, hrs⟩ := hfp.initialPlanState
    -- the resumed loop passes over what was planned and decides at the same snapshot
    have hres' := hres (fun _ => []) steps.length
    rw [hplan, List.take_left, List.drop_left] at hres'
    obtain ⟨r₀, r', hri', hrl', hmore'⟩ := buildPlan_eq_ok.mp hres'
    obtain rfl : r = r₀ := by
      change initialPlanState (m.addSteps (fun _ => []) steps).archives = .ok r₀ at hri'
      rw [hri] at hri'
      exact Except.ok.inj hri'
    have hskip : planLoop policy src pre r = .ok r :=
      planLoop_skip (fun s hs => hrr.destSet ▸ hpre.covers s hs)
    rw [hsplit, planLoop_append, hskip] at hrl'
    have hd := decideFull_of_steps hin hcand hrr.destSet hrest hmore hrl'
      (by rw [hrs, List.nil_append]; exact (congrArg RunPlan.steps hmore').symm)
    rw [hrl, decideFull_congr hrr.depthCache] at hd
    exact hd
  · intro hagree chunksOf k
    obtain ⟨pre, rest, stk, hsplit, hpre, hrest⟩ := hp.cut k
    rw [hsplit] at hf
    have hfk := hpre.follows hsrc (fun s hs => by rw [hsplit]; simp [hs])
      (hsplit ▸ src.volume.sorted) chunksOf hf
    obtain ⟨r, hri, hrr, _, hrs⟩ := hfk.initialPlanState
    have hagreek := (hsplit ▸ hagree : DecisionsAgree _ policy src st (pre ++ rest)).drop
      hpre.planLoop_eq
    obtain ⟨r', hl, hsteps⟩ := hrest.resume hrr hagreek
    refine buildPlan_eq_ok.mpr ⟨r, r', hri, ?_, by rw [hsteps, hrs, List.nil_append]⟩
    rw [hsplit, planLoop_append,
      planLoop_skip (fun s hs => hrr.destSet ▸ hpre.covers s hs)]
    exact hl

end Bbkar
