import Bbkar.Resume
import Bbkar.PlanParents
import Mathlib.Data.Finset.Max

/-!
# When setting the last full send back is harmless

The condition is read off the source, the archives and the policy. A snapshot that is not
archived is sent in full where the interval asks for it or where the chain it would extend
has no room. How long that chain is follows from counting: from the last snapshot whose
place in a chain is known, every snapshot is one more, and the limit divides the count where
a new chain begins.
-/
namespace Bbkar
open ParentForest

/-! ## Counting the snapshots of a chain -/

section Counting

variable (src : SourceState) (m : DestMeta) (policy : SendPolicy)

/-- How many parents are recorded above an archived name. -/
def incrementalsUnder (archives : List VolumeArchive) (name : String) : ℕ :=
  depthWithin (parentForest archives) archives.length name

/-- The source snapshots before `s`, each once. -/
def earlier (s : Timestamp) : Finset Timestamp := src.snapshots.toFinset.filter (· < s)

/-- The interval asks for a full send of `s`, measured from the most recent full archive. -/
def due (s : Timestamp) : Bool :=
  decide (checkIntervalExceeded (lastFullOf m.archives) s policy.minFullSendInterval = .ok true)

/-- The earlier snapshots whose place in a chain is known: the archived and the due ones. -/
def anchors (s : Timestamp) : Finset Timestamp :=
  (earlier src s).filter fun t => t.raw ∈ raws m.archives ∨ due m policy t = true

/-- The incremental archives a chain cut after `n` snapshots would have with `s` as its last
one: those under the last anchor, the anchor itself and the snapshots since. -/
def placeInChain (n : ℕ) (s : Timestamp) : ℕ :=
  if h : (anchors src m policy s).Nonempty then
    let a := (anchors src m policy s).max' h
    min (incrementalsUnder m.archives a.raw) (n - 1) + 1 + ((earlier src s).filter (a < ·)).card
  else (earlier src s).card

/-- Whether `s` begins a new chain even if the interval does not ask for it. -/
def fullByCount (s : Timestamp) : Bool :=
  match policy.maxIncrementalDepth with
  | none => decide (earlier src s = ∅)
  | some limit => decide (max limit 1 ∣ placeInChain src m policy (max limit 1) s)

/-- The snapshots to be sent in full as long as the interval is measured from the most recent
full archive. -/
def SentInFull (s : Timestamp) : Prop :=
  s.raw ∉ raws m.archives ∧ (fullByCount src m policy s || due m policy s) = true

instance (s : Timestamp) : Decidable (SentInFull src m policy s) :=
  inferInstanceAs (Decidable (_ ∧ _))

/-- If the last one sent in full before `s` is some `l` older than `f`, the decision for `s`
is the same measured from `l` and from `f`. -/
def HarmlessAt (f s : Timestamp) : Prop :=
  ∀ l ∈ src.snapshots, SentInFull src m policy l → l < f → l < s →
    (∀ t ∈ src.snapshots, l < t → t < s → ¬ SentInFull src m policy t) →
    (checkIntervalExceeded (some f) s policy.minFullSendInterval).map
        (fullByCount src m policy s || ·) =
      (checkIntervalExceeded (some l) s policy.minFullSendInterval).map
        (fullByCount src m policy s || ·)

instance (f s : Timestamp) : Decidable (HarmlessAt src m policy f s) :=
  inferInstanceAs (Decidable (∀ l ∈ src.snapshots, _))

/-- Sending a snapshot older than the most recent full archive `f` in full changes no later
decision. -/
def SetBackHarmless : Prop :=
  ∀ f ∈ lastFullOf m.archives, ∀ s ∈ src.snapshots, s.raw ∉ raws m.archives →
    HarmlessAt src m policy f s

instance : Decidable (SetBackHarmless src m policy) :=
  inferInstanceAs (Decidable (∀ f ∈ lastFullOf m.archives, _))

end Counting

section Places

variable {src : SourceState} {m : DestMeta} {policy : SendPolicy} {n : ℕ} {s p a : Timestamp}

theorem mem_earlier {t : Timestamp} : t ∈ earlier src s ↔ t ∈ src.snapshots ∧ t < s := by
  simp [earlier]

theorem mem_anchors {t : Timestamp} :
    t ∈ anchors src m policy s ↔
      (t ∈ src.snapshots ∧ t < s) ∧ (t.raw ∈ raws m.archives ∨ due m policy t = true) := by
  rw [anchors, Finset.mem_filter, mem_earlier]

/-- Before `s` come the greatest snapshot below it and what comes before that one. -/
theorem earlier_eq_insert (hp : IsGreatest (earlier src s : Set Timestamp) p) :
    earlier src s = insert p (earlier src p) := by
  obtain ⟨hmem, hlt⟩ := mem_earlier.mp (Finset.mem_coe.mp hp.1)
  ext t
  rw [Finset.mem_insert, mem_earlier, mem_earlier]
  constructor
  · rintro ⟨ht, hts⟩
    rcases (hp.2 (Finset.mem_coe.mpr (mem_earlier.mpr ⟨ht, hts⟩))).eq_or_lt with h | h
    · exact Or.inl h
    · exact Or.inr ⟨ht, h⟩
  · rintro (rfl | ⟨ht, htp⟩)
    · exact ⟨hmem, hlt⟩
    · exact ⟨ht, htp.trans hlt⟩

theorem placeInChain_of_greatest (ha : IsGreatest (anchors src m policy s : Set Timestamp) a) :
    placeInChain src m policy n s =
      min (incrementalsUnder m.archives a.raw) (n - 1) + 1 +
        ((earlier src s).filter (a < ·)).card := by
  have hne : (anchors src m policy s).Nonempty := ⟨a, ha.1⟩
  have hmax : (anchors src m policy s).max' hne = a :=
    le_antisymm (Finset.max'_le _ _ _ fun t ht => ha.2 ht) (Finset.le_max' _ _ ha.1)
  rw [placeInChain, dif_pos hne, hmax]

theorem placeInChain_of_none (h : anchors src m policy s = ∅) :
    placeInChain src m policy n s = (earlier src s).card := by
  rw [placeInChain, dif_neg (by simp [h])]

/-- The place of a snapshot that later ones are counted from. -/
def placeOf (src : SourceState) (m : DestMeta) (policy : SendPolicy) (n : ℕ)
    (p : Timestamp) : ℕ :=
  if p.raw ∈ raws m.archives ∨ due m policy p = true then
    min (incrementalsUnder m.archives p.raw) (n - 1)
  else placeInChain src m policy n p

/-- Each snapshot comes one place after the one before it. -/
theorem placeInChain_eq (hp : IsGreatest (earlier src s : Set Timestamp) p) :
    placeInChain src m policy n s = placeOf src m policy n p + 1 := by
  have hinsert := earlier_eq_insert hp
  have hnotin : p ∉ earlier src p := by simp [mem_earlier]
  rw [placeOf]
  split_ifs with hanchor
  · -- the snapshot before is itself the last anchor
    have hgreatest : IsGreatest (anchors src m policy s : Set Timestamp) p := by
      refine ⟨?_, fun t ht => hp.2 ?_⟩
      · exact Finset.mem_filter.mpr ⟨hp.1, hanchor⟩
      · exact Finset.mem_coe.mpr (Finset.mem_filter.mp (Finset.mem_coe.mp ht)).1
    have hnone : (earlier src s).filter (p < ·) = ∅ := by
      rw [Finset.filter_eq_empty_iff]
      intro t ht
      exact not_lt.mpr (hp.2 ht)
    rw [placeInChain_of_greatest hgreatest, hnone, Finset.card_empty, add_zero]
  · -- otherwise the last anchor is that of the snapshot before
    have hsame : anchors src m policy s = anchors src m policy p := by
      rw [anchors, hinsert, Finset.filter_insert, if_neg hanchor, anchors]
    rcases (anchors src m policy p).eq_empty_or_nonempty with hempty | hne
    · rw [placeInChain_of_none (hsame.trans hempty), placeInChain_of_none hempty, hinsert,
        Finset.card_insert_of_notMem hnotin]
    · have hgreatest := Finset.isGreatest_max' _ hne
      have hlt : (anchors src m policy p).max' hne < p :=
        (mem_anchors.mp (Finset.max'_mem _ hne)).1.2
      have hgreatest' : IsGreatest (anchors src m policy s : Set Timestamp)
          ((anchors src m policy p).max' hne) := by rw [hsame]; exact hgreatest
      rw [placeInChain_of_greatest hgreatest', placeInChain_of_greatest hgreatest, hinsert,
        Finset.filter_insert, if_pos hlt,
        Finset.card_insert_of_notMem (by simp [mem_earlier])]
      omega

/-- One more is divisible by `n` exactly where the remainder is the last one. -/
theorem dvd_add_one_iff {n k : ℕ} (hn : 0 < n) : n ∣ k + 1 ↔ k % n = n - 1 := by
  have hlt := Nat.mod_lt k hn
  rw [Nat.dvd_iff_mod_eq_zero, ← Nat.mod_add_mod]
  rcases Nat.lt_or_ge (k % n + 1) n with h | h
  · rw [Nat.mod_eq_of_lt h]
    omega
  · have hself : k % n + 1 = n := by omega
    rw [hself, Nat.mod_self]
    omega

theorem add_one_mod_of_ne {n k : ℕ} (hn : 0 < n) (h : k % n ≠ n - 1) :
    (k + 1) % n = k % n + 1 := by
  have hlt := Nat.mod_lt k hn
  rw [← Nat.mod_add_mod, Nat.mod_eq_of_lt (by omega)]

end Places

/-! ## The count and the loop variables -/

/-- The loop variables after `pre`, read off the inputs, as long as nothing newer than the
most recent full archive `f` has been sent in full. -/
structure Counted (src : SourceState) (m : DestMeta) (policy : SendPolicy) (f : Timestamp)
    (pre : List Timestamp) (st : PlanState) : Prop where
  names : ∀ name, name ∈ st.destSet ↔ name ∈ raws m.archives ∨ ∃ s ∈ pre, s.raw = name
  archived : ∀ name ∈ raws m.archives, st.depthOf name = incrementalsUnder m.archives name
  places : ∀ limit, policy.maxIncrementalDepth = some limit → ∀ s ∈ pre,
    min (st.depthOf s.raw) (max limit 1 - 1) =
      placeOf src m policy (max limit 1) s % max limit 1
  lastFull : (st.lastFull = some f ∧ ∀ s ∈ pre, ¬ SentInFull src m policy s) ∨
    ∃ l ∈ pre, l < f ∧ st.lastFull = some l ∧ SentInFull src m policy l ∧
      ∀ s ∈ pre, SentInFull src m policy s → s ≤ l

/-- Something newer has been sent in full, so nothing is set back any more. -/
structure Beyond (src : SourceState) (m : DestMeta) (policy : SendPolicy) (f : Timestamp)
    (pre : List Timestamp) (st : PlanState) : Prop where
  lastFull : ∃ t, st.lastFull = some t ∧ f ≤ t
  sent : ∃ u ∈ pre, SentInFull src m policy u ∧ f ≤ u

theorem incrementalsUnder_absent {archives : List VolumeArchive} {name : String}
    (h : name ∉ raws archives) : incrementalsUnder archives name = 0 :=
  depthWithin_absent (not_not.mp fun hne => h (parentForest_ne_none.mp hne)) _

/-- Before the loop the depths are those of the archives. -/
theorem initialPlanState_counted {src : SourceState} {m : DestMeta} {policy : SendPolicy}
    {f : Timestamp} {st : PlanState} (hw : WellFormed m.archives)
    (hi : initialPlanState m.archives = .ok st) (hf : lastFullOf m.archives = some f) :
    Counted src m policy f [] st := by
  obtain ⟨hset, -, hlast, -⟩ := initialPlanState_ok hi
  have htracks := initialPlanState_tracks hw hi
  refine ⟨fun name => by simp [hset], fun name hname => ?_, by simp, ?_⟩
  · obtain ⟨a, ha, rfl⟩ := mem_raws.mp hname
    obtain ⟨l, hl⟩ := hw.exists_lineage ha
    have hcount := hl.depthWithin_add_one m.archives.length
      ((lineage_length_le hw hl).trans (Nat.le_succ _))
    have hget := (htracks.depths a.raw (incrementalsUnder m.archives a.raw)).mpr
      ⟨l, hl, hcount.symm⟩
    rw [PlanState.depthOf, hget, Option.getD_some]
  · exact Or.inl ⟨hlast.trans hf, by simp⟩

section Loop

variable {src : SourceState} {m : DestMeta} {policy : SendPolicy} {f snap p : Timestamp}
  {pre post : List Timestamp} {st st' : PlanState}

/-- At the next snapshot everything before it in the source is archived or planned. -/
theorem mem_pre_of_lt (hsplit : src.snapshots = pre ++ snap :: post) {t : Timestamp}
    (ht : t ∈ src.snapshots) (hlt : t < snap) : t ∈ pre := by
  have hsorted : (pre ++ snap :: post).Pairwise (· ≤ ·) := hsplit ▸ src.volume.sorted
  rw [hsplit] at ht
  rcases List.mem_append.mp ht with h | h
  · exact h
  · rcases List.mem_cons.mp h with rfl | h
    · exact absurd hlt (lt_irrefl _)
    · have hle := (List.pairwise_cons.mp (List.pairwise_append.mp hsorted).2.1).1 t h
      exact absurd hlt (not_lt.mpr hle)

theorem le_of_mem_pre (hsplit : src.snapshots = pre ++ snap :: post) {t : Timestamp}
    (ht : t ∈ pre) : t ≤ snap := by
  have hsorted : (pre ++ snap :: post).Pairwise (· ≤ ·) := hsplit ▸ src.volume.sorted
  exact (List.pairwise_append.mp hsorted).2.2 t ht snap (by simp)

theorem lt_of_mem_pre (hsplit : src.snapshots = pre ++ snap :: post) (hnew : snap ∉ pre)
    {t : Timestamp} (ht : t ∈ pre) : t ∈ src.snapshots ∧ t < snap := by
  refine ⟨by rw [hsplit]; simp [ht], lt_of_le_of_ne (le_of_mem_pre hsplit ht) ?_⟩
  rintro rfl
  exact hnew ht

/-- Hence the candidate is the last snapshot before it. -/
theorem candidate_isGreatest (hsplit : src.snapshots = pre ++ snap :: post)
    (hcovers : ∀ s ∈ pre, s.raw ∈ st.destSet)
    (hp : findParentCandidate snap st.destSet (srcNamesOf src) src = some p) :
    IsGreatest (earlier src snap : Set Timestamp) p := by
  obtain ⟨hmem, hlt, -, hmax⟩ := findParentCandidate_some hp
  refine ⟨Finset.mem_coe.mpr (mem_earlier.mpr ⟨hmem, hlt⟩), fun t ht => ?_⟩
  obtain ⟨ht, hts⟩ := mem_earlier.mp (Finset.mem_coe.mp ht)
  exact hmax t ht hts (hcovers t (mem_pre_of_lt hsplit ht hts))

theorem earlier_eq_empty (hsplit : src.snapshots = pre ++ snap :: post)
    (hcovers : ∀ s ∈ pre, s.raw ∈ st.destSet)
    (hp : findParentCandidate snap st.destSet (srcNamesOf src) src = none) :
    earlier src snap = ∅ := by
  refine Finset.eq_empty_of_forall_notMem fun t ht => ?_
  obtain ⟨ht, hts⟩ := mem_earlier.mp ht
  exact findParentCandidate_none hp t ht hts (hcovers t (mem_pre_of_lt hsplit ht hts))

theorem Counted.covers (h : Counted src m policy f pre st) : ∀ s ∈ pre, s.raw ∈ st.destSet :=
  fun s hs => (h.names s.raw).mpr (Or.inr ⟨s, hs, rfl⟩)

theorem Counted.notMem (h : Counted src m policy f pre st) (hin : snap.raw ∉ st.destSet) :
    snap ∉ pre := fun hs => hin (h.covers snap hs)

/-- The first snapshot of the source begins a chain. -/
theorem fullByCount_of_earlier_empty (h : earlier src snap = ∅) :
    fullByCount src m policy snap = true := by
  have hanchors : anchors src m policy snap = ∅ := by rw [anchors, h, Finset.filter_empty]
  rw [fullByCount]
  cases policy.maxIncrementalDepth with
  | none => simpa using h
  | some limit => simp [placeInChain_of_none hanchors, h]

/-- The depth of the candidate uses up the limit where the count begins a new chain. -/
theorem Counted.wouldExceedDepth_eq (h : Counted src m policy f pre st)
    (hsplit : src.snapshots = pre ++ snap :: post)
    (hp : findParentCandidate snap st.destSet (srcNamesOf src) src = some p) :
    wouldExceedDepth policy (st.depthOf p.raw) = fullByCount src m policy snap := by
  have hgreatest := candidate_isGreatest hsplit h.covers hp
  obtain ⟨hmem, hlt⟩ := mem_earlier.mp (Finset.mem_coe.mp hgreatest.1)
  rw [wouldExceedDepth, fullByCount]
  cases hmax : policy.maxIncrementalDepth with
  | none =>
    have hne : earlier src snap ≠ ∅ := Finset.ne_empty_of_mem hgreatest.1
    simp [hne]
  | some limit =>
    have hplace := h.places limit hmax p (mem_pre_of_lt hsplit hmem hlt)
    have hpos : 0 < max limit 1 := by omega
    show decide _ = decide _
    rw [decide_eq_decide, placeInChain_eq hgreatest, dvd_add_one_iff hpos, ← hplace]
    omega

/-- The condition at a snapshot with a candidate, in terms of the loop variables. -/
theorem Counted.harmlessAt_iff (h : Counted src m policy f pre st)
    (hsplit : src.snapshots = pre ++ snap :: post) (hin : snap.raw ∉ st.destSet)
    (hp : findParentCandidate snap st.destSet (srcNamesOf src) src = some p) :
    HarmlessAt src m policy f snap ↔
      ∀ l, st.lastFull = some l → l < f →
        decideFull policy st (some f) snap p = decideFull policy st (some l) snap p := by
  simp only [decideFull, h.wouldExceedDepth_eq hsplit hp]
  constructor
  · intro hharmless l hl hlf
    rcases h.lastFull with ⟨hf, -⟩ | ⟨l', hmem, -, hl', hsent, hlast⟩
    · obtain rfl : f = l := Option.some.inj (hf.symm.trans hl)
      exact absurd hlf (lt_irrefl _)
    · obtain rfl : l' = l := Option.some.inj (hl'.symm.trans hl)
      obtain ⟨hsrc, hlt⟩ := lt_of_mem_pre hsplit (h.notMem hin) hmem
      refine hharmless l' hsrc hsent hlf hlt fun t ht hlt' hts hsent' => ?_
      exact absurd (hlast t (mem_pre_of_lt hsplit ht hts) hsent') (not_le.mpr hlt')
  · intro hloop l hl hsent hlf hlt hbetween
    have hmem := mem_pre_of_lt hsplit hl hlt
    rcases h.lastFull with ⟨-, hnone⟩ | ⟨l', hmem', -, hl', hsent', hlast⟩
    · exact absurd hsent (hnone l hmem)
    · rcases (hlast l hmem hsent).eq_or_lt with rfl | hlt'
      · exact hloop l hl' hlf
      · -- the last one sent in full before the snapshot is `l'`, not `l`
        obtain ⟨hsrc', hts⟩ := lt_of_mem_pre hsplit (h.notMem hin) hmem'
        exact absurd hsent' (hbetween l' hsrc' hlt' hts)

theorem Beyond.harmlessAt (h : Beyond src m policy f pre st)
    (hsplit : src.snapshots = pre ++ snap :: post) (hnew : snap ∉ pre) :
    HarmlessAt src m policy f snap := by
  obtain ⟨u, hu, hsent, hfu⟩ := h.sent
  obtain ⟨husrc, hlt⟩ := lt_of_mem_pre hsplit hnew hu
  intro l _ _ hlf _ hbetween
  exact absurd hsent (hbetween u husrc (hlf.trans_le hfu) hlt)

/-- Without a candidate there is nothing to be set back. -/
theorem harmlessAt_of_earlier_empty (h : earlier src snap = ∅) :
    HarmlessAt src m policy f snap := by
  intro l hl _ _ hlt _
  exact absurd (mem_earlier.mpr ⟨hl, hlt⟩) (by simp [h])

/-- A snapshot that is archived, or there twice, changes nothing. -/
theorem Counted.skip (h : Counted src m policy f pre st) (hsrc : src.Parsed)
    (hsplit : src.snapshots = pre ++ snap :: post) (hin : snap.raw ∈ st.destSet) :
    Counted src m policy f (pre ++ [snap]) st := by
  have hcase : snap.raw ∈ raws m.archives ∨ snap ∈ pre := by
    rcases (h.names snap.raw).mp hin with ha | ⟨s, hs, hraw⟩
    · exact Or.inl ha
    · have hparsed : ∀ t ∈ pre ++ snap :: post, t.Parsed := hsplit ▸ hsrc
      exact Or.inr ((hparsed s (by simp [hs])).ext (hparsed snap (by simp)) hraw ▸ hs)
  have hnotSent : SentInFull src m policy snap → snap ∈ pre :=
    fun hsent => hcase.resolve_left hsent.1
  refine ⟨fun name => ?_, h.archived, fun limit hlimit s hs => ?_, ?_⟩
  · rw [h.names name]
    constructor
    · rintro (ha | ⟨s, hs, hraw⟩)
      · exact Or.inl ha
      · exact Or.inr ⟨s, by simp [hs], hraw⟩
    · rintro (ha | ⟨s, hs, hraw⟩)
      · exact Or.inl ha
      · rcases List.mem_append.mp hs with hs | hs
        · exact Or.inr ⟨s, hs, hraw⟩
        · obtain rfl := List.mem_singleton.mp hs
          exact hraw ▸ (h.names s.raw).mp hin
  · rcases List.mem_append.mp hs with hs | hs
    · exact h.places limit hlimit s hs
    · obtain rfl := List.mem_singleton.mp hs
      rcases hcase with ha | hpre
      · rw [h.archived _ ha, placeOf, if_pos (Or.inl ha), Nat.mod_eq_of_lt (by omega)]
      · exact h.places limit hlimit s hpre
  · have hmem : ∀ s ∈ pre ++ [snap], SentInFull src m policy s → s ∈ pre := by
      intro s hs hsent
      rcases List.mem_append.mp hs with hs | hs
      · exact hs
      · exact List.mem_singleton.mp hs ▸ hnotSent (List.mem_singleton.mp hs ▸ hsent)
    rcases h.lastFull with ⟨hf, hnone⟩ | ⟨l, hl, hlf, hlast, hsent, hmax⟩
    · exact Or.inl ⟨hf, fun s hs hsent => hnone s (hmem s hs hsent) hsent⟩
    · exact Or.inr ⟨l, by simp [hl], hlf, hlast, hsent,
        fun s hs hsent' => hmax s (hmem s hs hsent') hsent'⟩

/-- The count goes on over a snapshot that is sent, if its depth is its place. -/
theorem Counted.send (h : Counted src m policy f pre st) (hsends : st.Sends snap st')
    (hcovers : ∀ s ∈ pre, s.raw ≠ snap.raw) (hin : snap.raw ∉ raws m.archives)
    (hplace : ∀ limit, policy.maxIncrementalDepth = some limit →
      min (st'.depthOf snap.raw) (max limit 1 - 1) =
        placeOf src m policy (max limit 1) snap % max limit 1)
    (hlast : (st'.lastFull = some f ∧ ∀ s ∈ pre ++ [snap], ¬ SentInFull src m policy s) ∨
      ∃ l ∈ pre ++ [snap], l < f ∧ st'.lastFull = some l ∧ SentInFull src m policy l ∧
        ∀ s ∈ pre ++ [snap], SentInFull src m policy s → s ≤ l) :
    Counted src m policy f (pre ++ [snap]) st' := by
  refine ⟨fun name => ?_, fun name hname => ?_, fun limit hlimit s hs => ?_, hlast⟩
  · rw [hsends.destSet, Finset.mem_insert, h.names name]
    constructor
    · rintro (rfl | ha | ⟨s, hs, hraw⟩)
      · exact Or.inr ⟨snap, by simp, rfl⟩
      · exact Or.inl ha
      · exact Or.inr ⟨s, by simp [hs], hraw⟩
    · rintro (ha | ⟨s, hs, hraw⟩)
      · exact Or.inr (Or.inl ha)
      · rcases List.mem_append.mp hs with hs | hs
        · exact Or.inr (Or.inr ⟨s, hs, hraw⟩)
        · exact Or.inl (List.mem_singleton.mp hs ▸ hraw.symm)
  · rw [hsends.depths name fun he => hin (he ▸ hname)]
    exact h.archived name hname
  · rcases List.mem_append.mp hs with hs | hs
    · rw [hsends.depths s.raw (hcovers s hs)]
      exact h.places limit hlimit s hs
    · exact List.mem_singleton.mp hs ▸ hplace limit hlimit

/-- Measured from `f` the decision is the one of the count and the interval. -/
theorem decideFull_eq_ok (hf : lastFullOf m.archives = some f)
    (hexceed : wouldExceedDepth policy (st.depthOf p.raw) = fullByCount src m policy snap)
    {b : Bool} (h : decideFull policy st (some f) snap p = .ok b) :
    (fullByCount src m policy snap || due m policy snap) = b := by
  rw [decideFull, hexceed] at h
  rw [due, hf]
  cases hc : checkIntervalExceeded (some f) snap policy.minFullSendInterval with
  | error e => simp [hc, Except.map] at h
  | ok c =>
    simp only [hc, Except.map, Except.ok.injEq] at h
    cases c <;> simpa using h

/-- Where the condition holds the loop decides as if measured from `f`. -/
theorem Counted.decideFull_eq (h : Counted src m policy f pre st)
    (hsplit : src.snapshots = pre ++ snap :: post) (hin : snap.raw ∉ st.destSet)
    (hp : findParentCandidate snap st.destSet (srcNamesOf src) src = some p)
    (hharmless : HarmlessAt src m policy f snap) :
    decideFull policy st (some f) snap p = decideFull policy st st.lastFull snap p := by
  rcases h.lastFull with ⟨hf, -⟩ | ⟨l, -, hlf, hl, -, -⟩
  · rw [hf]
  · rw [hl]
    exact (h.harmlessAt_iff hsplit hin hp).mp hharmless l hl hlf

/-- A snapshot the loop sends in full is one of those the count and the interval tell. -/
theorem Counted.full_sent (h : Counted src m policy f pre st)
    (hf : lastFullOf m.archives = some f) (hsplit : src.snapshots = pre ++ snap :: post)
    (hin : snap.raw ∉ st.destSet) (hharmless : HarmlessAt src m policy f snap)
    (why : ForcedFull policy src st snap) :
    (fullByCount src m policy snap || due m policy snap) = true := by
  rcases why.eq with hp | ⟨p, hp, hd⟩
  · rw [fullByCount_of_earlier_empty (earlier_eq_empty hsplit h.covers hp), Bool.true_or]
  · exact decideFull_eq_ok hf (h.wouldExceedDepth_eq hsplit hp)
      ((h.decideFull_eq hsplit hin hp hharmless).trans hd)

theorem Counted.incremental_not_sent (h : Counted src m policy f pre st)
    (hf : lastFullOf m.archives = some f) (hsplit : src.snapshots = pre ++ snap :: post)
    (hin : snap.raw ∉ st.destSet) (hharmless : HarmlessAt src m policy f snap)
    (why : AllowsIncremental policy src st snap p) :
    (fullByCount src m policy snap || due m policy snap) = false :=
  decideFull_eq_ok hf (h.wouldExceedDepth_eq hsplit why.candidate)
    ((h.decideFull_eq hsplit hin why.candidate hharmless).trans why.eq)

/-- A full send has depth zero, and its place begins a chain. -/
theorem placeOf_full (hin : snap.raw ∉ raws m.archives)
    (hsent : (fullByCount src m policy snap || due m policy snap) = true) {limit : ℕ}
    (hlimit : policy.maxIncrementalDepth = some limit) :
    placeOf src m policy (max limit 1) snap % max limit 1 = 0 := by
  rw [placeOf]
  split_ifs with hanchor
  · rw [incrementalsUnder_absent hin, Nat.zero_min, Nat.zero_mod]
  · have hdue : due m policy snap = false := by simpa using (not_or.mp hanchor).2
    rw [hdue, Bool.or_false, fullByCount, hlimit, decide_eq_true_eq] at hsent
    exact Nat.mod_eq_zero_of_dvd hsent

/-- An incremental send is one deeper than its parent, and one place further. -/
theorem Counted.placeOf_incremental (h : Counted src m policy f pre st)
    (hsplit : src.snapshots = pre ++ snap :: post) (hin : snap.raw ∉ raws m.archives)
    (hp : findParentCandidate snap st.destSet (srcNamesOf src) src = some p)
    (hnot : (fullByCount src m policy snap || due m policy snap) = false) {limit : ℕ}
    (hlimit : policy.maxIncrementalDepth = some limit) :
    min (st.depthOf p.raw + 1) (max limit 1 - 1) =
      placeOf src m policy (max limit 1) snap % max limit 1 := by
  have hgreatest := candidate_isGreatest hsplit h.covers hp
  obtain ⟨hmem, hlt⟩ := mem_earlier.mp (Finset.mem_coe.mp hgreatest.1)
  have hparent := h.places limit hlimit p (mem_pre_of_lt hsplit hmem hlt)
  have hpos : 0 < max limit 1 := by omega
  obtain ⟨hcount, hdue⟩ := Bool.or_eq_false_iff.mp hnot
  rw [fullByCount, hlimit, decide_eq_false_iff_not, placeInChain_eq hgreatest,
    dvd_add_one_iff hpos] at hcount
  rw [placeOf, if_neg (by simp [hin, hdue]), placeInChain_eq hgreatest,
    add_one_mod_of_ne hpos hcount, ← hparent]
  rw [← hparent] at hcount
  omega

/-- One iteration keeps the count, or sends something newer than `f` in full. -/
theorem Counted.step (h : Counted src m policy f pre st) (hsrc : src.Parsed)
    (hf : lastFullOf m.archives = some f) (hsplit : src.snapshots = pre ++ snap :: post)
    (hharmless : snap.raw ∉ raws m.archives → HarmlessAt src m policy f snap)
    (hs : planSnapshot policy src (srcNamesOf src) st snap = .ok st') :
    Counted src m policy f (pre ++ [snap]) st' ∨ Beyond src m policy f (pre ++ [snap]) st' := by
  rcases planSnapshot_cases hs with ⟨hin, rfl⟩ | ⟨hin, hwhy, rfl⟩ | ⟨hin, p, hwhy, rfl⟩
  · exact Or.inl (h.skip hsrc hsplit hin)
  all_goals
    have hnew : snap.raw ∉ raws m.archives := fun ha => hin ((h.names snap.raw).mpr (Or.inl ha))
    have hother : ∀ s ∈ pre, s.raw ≠ snap.raw := fun s hs' he => hin (he ▸ h.covers s hs')
  · have hsent := h.full_sent hf hsplit hin (hharmless hnew) hwhy
    rcases lt_or_ge snap f with hlt | hge
    · refine Or.inl (h.send (st.sends_full snap) hother hnew (fun limit hlimit => ?_)
        (Or.inr ⟨snap, by simp, hlt, rfl, ⟨hnew, hsent⟩, fun s hs' _ => ?_⟩))
      · rw [PlanState.depthOf_full, Nat.zero_min, placeOf_full hnew hsent hlimit]
      · rcases List.mem_append.mp hs' with hs' | hs'
        · exact le_of_mem_pre hsplit hs'
        · exact (List.mem_singleton.mp hs').le
    · exact Or.inr ⟨⟨snap, rfl, hge⟩, snap, by simp, ⟨hnew, hsent⟩, hge⟩
  · have hnot := h.incremental_not_sent hf hsplit hin (hharmless hnew) hwhy
    have hnotSent : ∀ s ∈ pre ++ [snap], SentInFull src m policy s → s ∈ pre := by
      intro s hs' hsent
      rcases List.mem_append.mp hs' with hs' | hs'
      · exact hs'
      · obtain rfl := List.mem_singleton.mp hs'
        exact absurd (hnot.symm.trans hsent.2) (by simp)
    refine Or.inl (h.send (st.sends_incremental snap p) hother hnew (fun limit hlimit => ?_) ?_)
    · rw [PlanState.depthOf_incremental]
      exact h.placeOf_incremental hsplit hnew hwhy.candidate hnot hlimit
    · rcases h.lastFull with ⟨hl, hnone⟩ | ⟨l, hl, hlf, hlast, hsent, hmax⟩
      · exact Or.inl ⟨hl, fun s hs' hsent => hnone s (hnotSent s hs' hsent) hsent⟩
      · exact Or.inr ⟨l, by simp [hl], hlf, hlast, hsent,
          fun s hs' hsent' => hmax s (hnotSent s hs' hsent') hsent'⟩

theorem Beyond.step (h : Beyond src m policy f pre st)
    (hsplit : src.snapshots = pre ++ snap :: post)
    (hs : planSnapshot policy src (srcNamesOf src) st snap = .ok st') :
    Beyond src m policy f (pre ++ [snap]) st' := by
  obtain ⟨u, hu, hsent, hfu⟩ := h.sent
  have hsent' : ∃ u ∈ pre ++ [snap], SentInFull src m policy u ∧ f ≤ u :=
    ⟨u, by simp [hu], hsent, hfu⟩
  rcases planSnapshot_cases hs with ⟨-, rfl⟩ | ⟨-, -, rfl⟩ | ⟨-, p, -, rfl⟩
  · exact ⟨h.lastFull, hsent'⟩
  · exact ⟨⟨snap, rfl, hfu.trans (le_of_mem_pre hsplit hu)⟩, hsent'⟩
  · exact ⟨h.lastFull, hsent'⟩

/-- As long as the condition holds, one of the two describes the loop variables. -/
theorem counted_or_beyond (hsrc : src.Parsed) (hw : WellFormed m.archives)
    (hf : lastFullOf m.archives = some f) (hi : initialPlanState m.archives = .ok st)
    (pre post : List Timestamp) (hsplit : src.snapshots = pre ++ post)
    (hl : planLoop policy src pre st = .ok st')
    (hharmless : ∀ s ∈ pre, s.raw ∉ raws m.archives → HarmlessAt src m policy f s) :
    Counted src m policy f pre st' ∨ Beyond src m policy f pre st' := by
  induction pre using List.reverseRecOn generalizing post st' with
  | nil =>
    obtain rfl : st = st' := Except.ok.inj hl
    exact Or.inl (initialPlanState_counted hw hi hf)
  | append_singleton pre snap ih =>
    rw [planLoop_append] at hl
    cases hpre : planLoop policy src pre st with
    | error e => simp [hpre, Except.bind] at hl
    | ok stp =>
      rw [hpre] at hl
      have hs : planSnapshot policy src (srcNamesOf src) stp snap = .ok st' := by
        simpa [Except.bind, planLoop] using hl
      have hsplit' : src.snapshots = pre ++ snap :: post := by simpa using hsplit
      rcases ih (snap :: post) hsplit' hpre fun s hs' => hharmless s (by simp [hs']) with h | h
      · exact h.step hsrc hf hsplit' (hharmless snap (by simp)) hs
      · exact Or.inr (h.step hsplit' hs)

/-- Where the loop decides alike, the condition holds at every snapshot it has gone over. -/
theorem LoopHarmless.harmlessAt (h : LoopHarmless src m policy) (hsrc : src.Parsed)
    (hw : WellFormed m.archives) (hf : lastFullOf m.archives = some f)
    (hi : initialPlanState m.archives = .ok st)
    (hend : planLoop policy src src.snapshots st = .ok st') (pre post : List Timestamp)
    (hsplit : src.snapshots = pre ++ post) :
    ∀ s ∈ pre, s.raw ∉ raws m.archives → HarmlessAt src m policy f s := by
  -- by induction over the snapshots gone over, each next one is decided the same way
  induction pre using List.reverseRecOn generalizing post with
  | nil => simp
  | append_singleton pre snap ih =>
    intro s hs hnew
    have hsplit' : src.snapshots = pre ++ snap :: post := by simpa using hsplit
    have hbefore := ih (snap :: post) hsplit'
    by_cases hagain : s ∈ pre
    · exact hbefore s hagain hnew
    obtain rfl := List.mem_singleton.mp ((List.mem_append.mp hs).resolve_left hagain)
    obtain ⟨stp, hl⟩ : ∃ stp, planLoop policy src pre st = .ok stp := by
      rw [hsplit', planLoop_append] at hend
      cases hl : planLoop policy src pre st with
      | error e => simp [hl, Except.bind] at hend
      | ok stp => exact ⟨stp, rfl⟩
    rcases counted_or_beyond hsrc hw hf hi pre (s :: post) hsplit' hl hbefore with hc | hb
    · have hin : s.raw ∉ stp.destSet := by
        intro hmem
        rcases (hc.names s.raw).mp hmem with ha | ⟨q, hq, hraw⟩
        · exact hnew ha
        · have hqs : q = s := (hsrc q (by rw [hsplit']; simp [hq])).ext
            (hsrc s (by rw [hsplit']; simp)) hraw
          exact hagain (hqs ▸ hq)
      cases hp : findParentCandidate s stp.destSet (srcNamesOf src) src with
      | none => exact harmlessAt_of_earlier_empty (earlier_eq_empty hsplit' hc.covers hp)
      | some p =>
        refine (hc.harmlessAt_iff hsplit' hin hp).mpr fun l hlast hlf => ?_
        exact h st hi pre s post stp p f l hsplit' hl hin hp hf hlast hlf
    · exact hb.harmlessAt hsplit' hagain

end Loop

/-- Along a plan that returns, the condition on the inputs is the one on the loop. -/
theorem setBackHarmless_iff_loopHarmless {src : SourceState} (hsrc : src.Parsed) {m : DestMeta}
    (hw : WellFormed m.archives) {policy : SendPolicy} {plan : RunPlan}
    (h : buildPlan src ⟨some m⟩ policy = .ok plan) :
    SetBackHarmless src m policy ↔ LoopHarmless src m policy := by
  obtain ⟨st, stEnd, hi, hend, -⟩ := buildPlan_eq_ok.mp h
  change initialPlanState m.archives = .ok st at hi
  constructor
  · intro hharmless st₀ hi₀ pre snap post stp p f l hsplit hl hin hp hf hlast hlf
    obtain rfl : st = st₀ := Except.ok.inj (hi.symm.trans hi₀)
    have hpre : ∀ s ∈ pre, s.raw ∉ raws m.archives → HarmlessAt src m policy f s :=
      fun s hs => hharmless f hf s (by rw [hsplit]; simp [hs])
    rcases counted_or_beyond hsrc hw hf hi pre (snap :: post) hsplit hl hpre with hc | hb
    · have hnew : snap.raw ∉ raws m.archives :=
        fun ha => hin ((hc.names snap.raw).mpr (Or.inl ha))
      exact (hc.harmlessAt_iff hsplit hin hp).mp
        (hharmless f hf snap (by rw [hsplit]; simp) hnew) l hlast hlf
    · obtain ⟨t, ht, hft⟩ := hb.lastFull
      obtain rfl : t = l := Option.some.inj (ht.symm.trans hlast)
      exact absurd hlf (not_lt.mpr hft)
  · intro hloop f hf
    exact hloop.harmlessAt hsrc hw hf hi hend src.snapshots [] (List.append_nil _).symm

/-! ## Resuming -/

/-- A plan can be resumed after every step exactly when sending a snapshot older than the most
recent full archive in full changes no later decision. -/
theorem resumable_iff_setBackHarmless {src : SourceState} (hsrc : src.Parsed) {m : DestMeta}
    (hw : WellFormed m.archives) {policy : SendPolicy} {plan : RunPlan}
    (h : buildPlan src ⟨some m⟩ policy = .ok plan) :
    Resumable src m policy plan.steps ↔ SetBackHarmless src m policy :=
  (resumable_iff_loopHarmless hsrc hw h).trans
    (setBackHarmless_iff_loopHarmless hsrc hw h).symm

def setBackSource : SourceState :=
  ⟨Series.new "root" [.plain "20230105", .plain "20230112"]⟩

def setBackMeta : DestMeta := DestMeta.new 0 0 [⟨.plain "20230110", none, []⟩]

def weekly : SendPolicy := ⟨⟨7⟩, none⟩

theorem setBackMeta_wellFormed : WellFormed setBackMeta.archives :=
  .of_full (by decide) (by decide)

/-- With a full archive of the 10th, the 5th is sent in full first. In the same plan the
12th is then seven days after the last full send, in a new plan only two. -/
theorem setBack_not_resumable :
    setBackSource.Parsed ∧ WellFormed setBackMeta.archives ∧
      buildPlan setBackSource ⟨some setBackMeta⟩ weekly =
        .ok ⟨[.sendFull (.plain "20230105"), .sendFull (.plain "20230112")]⟩ ∧
      ¬ Resumable setBackSource setBackMeta weekly
        [.sendFull (.plain "20230105"), .sendFull (.plain "20230112")] := by
  refine ⟨by decide, setBackMeta_wellFormed, by decide, ?_⟩
  intro h
  have hresumed := h (fun _ => []) 1
  revert hresumed
  decide

/-- With the 11th in place of the 12th the last full send is set back as well, but the
interval asks for nothing from either day. -/
theorem resumable_iff_setBackHarmless_weekly :
    (Resumable ⟨Series.new "root" [.plain "20230105", .plain "20230111"]⟩ setBackMeta weekly
        [.sendFull (.plain "20230105"),
          .sendIncremental (.plain "20230111") (.plain "20230105")] ↔
      SetBackHarmless ⟨Series.new "root" [.plain "20230105", .plain "20230111"]⟩
        setBackMeta weekly) ∧
    Resumable ⟨Series.new "root" [.plain "20230105", .plain "20230111"]⟩ setBackMeta weekly
      [.sendFull (.plain "20230105"),
        .sendIncremental (.plain "20230111") (.plain "20230105")] ∧
    SentInFull ⟨Series.new "root" [.plain "20230105", .plain "20230111"]⟩ setBackMeta weekly
      (.plain "20230105") ∧
    ¬ SetBackHarmless setBackSource setBackMeta weekly := by
  have h : buildPlan ⟨Series.new "root" [.plain "20230105", .plain "20230111"]⟩
      ⟨some setBackMeta⟩ weekly =
        .ok ⟨[.sendFull (.plain "20230105"),
          .sendIncremental (.plain "20230111") (.plain "20230105")]⟩ := by decide
  have hiff := resumable_iff_setBackHarmless (by decide) setBackMeta_wellFormed h
  exact ⟨hiff, hiff.mpr (by decide), by decide, by decide⟩

end Bbkar
