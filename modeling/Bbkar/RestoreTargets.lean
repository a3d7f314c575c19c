import Bbkar.RestoreClosure

/-!
# What a restore selects

The targets are the archives a selection names. The prepared steps are the closure of the
targets under parents, in an order in which every parent has been received before.
-/
namespace Bbkar
open KeySort ParentForest

/-! ## Targets -/

/-- The archive names that a selection picks. -/
def Selected (archives : List VolumeArchive) (snapshots : List String)
    (minTimestamp maxTimestamp : Option String) (name : String) : Prop :=
  name ∈ raws archives ∧
    (name ∈ snapshots ∨
      ((minTimestamp.isSome ∨ maxTimestamp.isSome) ∧
        (∀ lo, minTimestamp = some lo → lo ≤ name) ∧
        ∀ hi, maxTimestamp = some hi → name ≤ hi) ∨
      (snapshots = [] ∧ minTimestamp = none ∧ maxTimestamp = none ∧
        ∀ a ∈ archives, a.raw ≤ name))

/-- Every explicit name is archived, and some archive is selected. -/
def Selectable (archives : List VolumeArchive) (snapshots : List String)
    (minTimestamp maxTimestamp : Option String) : Prop :=
  (∀ name ∈ snapshots, name ∈ raws archives) ∧
    ∃ name, Selected archives snapshots minTimestamp maxTimestamp name

theorem inRange_iff {lo hi : Option String} {name : String} :
    inRange lo hi name = true ↔
      (∀ l, lo = some l → l ≤ name) ∧ ∀ h, hi = some h → name ≤ h := by
  cases lo <;> cases hi <;>
    simp only [inRange, Bool.and_eq_true, Bool.not_eq_true', decide_eq_false_iff_not, not_lt,
      reduceCtorEq, false_imp_iff, implies_true, Option.some.injEq, forall_eq', and_self]

/-- `max_by_key` finds a greatest archive unless there is none. -/
theorem newestArchive_cases (archives : List VolumeArchive) :
    (newestArchive archives = none ∧ archives = []) ∨
      ∃ a ∈ archives, newestArchive archives = some a ∧
        ∀ b ∈ archives, b.timestamp ≤ a.timestamp := by
  induction archives using List.reverseRecOn with
  | nil => exact Or.inl ⟨rfl, rfl⟩
  | append_singleton xs x ih =>
    refine Or.inr ?_
    unfold newestArchive at ih ⊢
    rw [List.foldl_append, List.foldl_cons, List.foldl_nil]
    rcases ih with ⟨hnone, rfl⟩ | ⟨a, ha, hsome, hmax⟩
    · exact ⟨x, by simp, rfl, by simp⟩
    · simp only [hsome]
      split_ifs with hle
      · refine ⟨x, by simp, rfl, ?_⟩
        intro b hb
        rcases List.mem_append.mp hb with hb | hb
        · exact (hmax b hb).trans hle
        · rw [List.mem_singleton.mp hb]
      · refine ⟨a, by simp [ha], rfl, ?_⟩
        intro b hb
        rcases List.mem_append.mp hb with hb | hb
        · exact hmax b hb
        · rw [List.mem_singleton.mp hb]
          exact (not_le.mp hle).le

/-- The targets found so far are timestamps of archives, each name once. -/
structure TargetsOf (archives : List VolumeArchive) (names : String → Prop)
    (st : Finset String × List Timestamp) : Prop where
  unseen : Unseen Timestamp.raw st
  names : ∀ name, name ∈ st.2.map Timestamp.raw ↔ names name
  archived : ∀ t ∈ st.2, ∃ a ∈ archives, a.timestamp = t

theorem TargetsOf.empty (archives : List VolumeArchive) :
    TargetsOf archives (fun _ => False) (∅, []) :=
  ⟨Unseen.empty _, by simp, by simp⟩

theorem TargetsOf.push {archives : List VolumeArchive} {names : String → Prop}
    {st : Finset String × List Timestamp} (h : TargetsOf archives names st)
    {a : VolumeArchive} (ha : a ∈ archives) :
    TargetsOf archives (fun name => names name ∨ name = a.raw)
      (pushUnseen Timestamp.raw st a.timestamp) := by
  refine ⟨h.unseen.pushUnseen _, ?_, ?_⟩
  · intro name
    rw [pushUnseen_keys h.unseen, h.names]
    rfl
  · intro t ht
    rcases pushUnseen_mem ht with ht | rfl
    · exact h.archived t ht
    · exact ⟨a, ha, rfl⟩

theorem TargetsOf.congr {archives : List VolumeArchive} {names names' : String → Prop}
    {st : Finset String × List Timestamp} (h : TargetsOf archives names st)
    (hiff : ∀ name, names name ↔ names' name) : TargetsOf archives names' st :=
  ⟨h.unseen, fun name => (h.names name).trans (hiff name), h.archived⟩

/-- The explicit names are added, or one of them is reported as not archived. -/
theorem foldlM_addExplicit {archives : List VolumeArchive} (snapshots : List String)
    {names : String → Prop} {st : Finset String × List Timestamp}
    (h : TargetsOf archives names st) :
    ((∀ name ∈ snapshots, name ∈ raws archives) ∧
      ∃ st', snapshots.foldlM (addExplicit archives) st = .ok st' ∧
        TargetsOf archives (fun name => names name ∨ name ∈ snapshots) st') ∨
    ((∃ name ∈ snapshots, name ∉ raws archives) ∧
      ∃ e, snapshots.foldlM (addExplicit archives) st = .error (.err e)) := by
  induction snapshots generalizing names st with
  | nil => exact Or.inl ⟨by simp, st, rfl, h.congr (by simp)⟩
  | cons s snapshots ih =>
    rw [List.foldlM_cons]
    cases hf : archives.find? (fun a => a.raw == s) with
    | none =>
      refine Or.inr ⟨⟨s, by simp, ?_⟩, ?_⟩
      · simpa using hf
      · simp only [addExplicit, hf]
        exact ⟨_, rfl⟩
    | some a =>
      have ha : a ∈ archives := List.mem_of_find?_eq_some hf
      have hs : a.raw = s := by simpa using List.find?_some hf
      simp only [addExplicit, hf, bind, Except.bind]
      rcases ih (h.push ha) with ⟨hall, st', hok, ht⟩ | ⟨⟨n, hn, hna⟩, herr⟩
      · refine Or.inl ⟨?_, st', hok, ht.congr ?_⟩
        · intro name hname
          rcases List.mem_cons.mp hname with rfl | hname
          · exact mem_raws.mpr ⟨a, ha, hs⟩
          · exact hall name hname
        · intro name
          rw [hs, List.mem_cons, or_assoc]
      · exact Or.inr ⟨⟨n, List.mem_cons_of_mem _ hn, hna⟩, herr⟩

/-- The archives in range are added. -/
theorem foldl_addInRange {archives : List VolumeArchive} {lo hi : Option String}
    (rest : List VolumeArchive) (hrest : ∀ a ∈ rest, a ∈ archives)
    {names : String → Prop} {st : Finset String × List Timestamp}
    (h : TargetsOf archives names st) :
    TargetsOf archives
      (fun name => names name ∨ (name ∈ raws rest ∧ inRange lo hi name = true))
      (rest.foldl (addInRange lo hi) st) := by
  induction rest generalizing names st with
  | nil => exact h.congr (by simp [raws])
  | cons a rest ih =>
    have hrest' : ∀ b ∈ rest, b ∈ archives := fun b hb => hrest b (List.mem_cons_of_mem _ hb)
    rw [List.foldl_cons, addInRange]
    split_ifs with hin
    · refine (ih hrest' (h.push (hrest a (by simp)))).congr ?_
      intro name
      simp only [raws, List.map_cons, List.mem_cons]
      constructor
      · rintro ((hn | rfl) | hn)
        · exact Or.inl hn
        · exact Or.inr ⟨Or.inl rfl, hin⟩
        · exact Or.inr ⟨Or.inr hn.1, hn.2⟩
      · rintro (hn | ⟨rfl | hn, hr⟩)
        · exact Or.inl (Or.inl hn)
        · exact Or.inl (Or.inr rfl)
        · exact Or.inr ⟨hn, hr⟩
    · refine (ih hrest' h).congr ?_
      intro name
      simp only [raws, List.map_cons, List.mem_cons]
      constructor
      · rintro (hn | hn)
        · exact Or.inl hn
        · exact Or.inr ⟨Or.inr hn.1, hn.2⟩
      · rintro (hn | ⟨rfl | hn, hr⟩)
        · exact Or.inl hn
        · exact absurd hr hin
        · exact Or.inr ⟨hn, hr⟩

/-- Without filters the newest archive is selected. -/
theorem selected_newest {archives : List VolumeArchive} {a : VolumeArchive} (ha : a ∈ archives)
    (hmax : ∀ b ∈ archives, b.timestamp ≤ a.timestamp) (name : String) :
    name = a.raw ↔ Selected archives [] none none name := by
  constructor
  · rintro rfl
    exact ⟨mem_raws.mpr ⟨a, ha, rfl⟩, Or.inr (Or.inr ⟨rfl, rfl, rfl,
      fun b hb => Timestamp.raw_le_of_le (hmax b hb)⟩)⟩
  · rintro ⟨hname, hn | ⟨hn, -⟩ | ⟨-, -, -, hn⟩⟩
    · simp at hn
    · simp at hn
    · obtain ⟨b, hb, rfl⟩ := mem_raws.mp hname
      exact le_antisymm (Timestamp.raw_le_of_le (hmax b hb)) (hn a ha)

/-- With filters the explicit names are selected and what lies in a given range. -/
theorem selected_filtered {archives : List VolumeArchive} {snapshots : List String}
    {lo hi : Option String} (hfilter : ¬ (snapshots = [] ∧ lo = none ∧ hi = none))
    (hall : ∀ n ∈ snapshots, n ∈ raws archives) (name : String) :
    Selected archives snapshots lo hi name ↔
      name ∈ snapshots ∨ ((lo.isSome || hi.isSome) = true ∧ name ∈ raws archives ∧
        inRange lo hi name = true) := by
  rw [inRange_iff, Bool.or_eq_true]
  constructor
  · rintro ⟨hname, hn | hn | ⟨h₁, h₂, h₃, -⟩⟩
    · exact Or.inl hn
    · exact Or.inr ⟨hn.1, hname, hn.2⟩
    · exact absurd ⟨h₁, h₂, h₃⟩ hfilter
  · rintro (hn | ⟨hb, hname, hn⟩)
    · exact ⟨hall name hn, Or.inl hn⟩
    · exact ⟨hname, Or.inr (Or.inl ⟨hb, hn⟩)⟩

/-- The list of targets holds the selected archives, unless the selection is refused. -/
def ResolvesOrRefuses (archives : List VolumeArchive) (snapshots : List String)
    (lo hi : Option String) : Prop :=
  (Selectable archives snapshots lo hi ∧
    ∃ targets, resolveTargets archives snapshots lo hi = .ok targets ∧
      (∀ name, name ∈ targets.map Timestamp.raw ↔ Selected archives snapshots lo hi name) ∧
      ∀ t ∈ targets, ∃ a ∈ archives, a.timestamp = t) ∨
  (¬ Selectable archives snapshots lo hi ∧
    ∃ e, resolveTargets archives snapshots lo hi = .error (.err e))

theorem resolveTargets_default (archives : List VolumeArchive) :
    ResolvesOrRefuses archives [] none none := by
  simp only [ResolvesOrRefuses, resolveTargets, List.isEmpty_nil, Bool.not_true, Bool.not_false,
    Option.isSome_none, Bool.or_self, Bool.and_self, if_true]
  rcases newestArchive_cases archives with ⟨hnone, rfl⟩ | ⟨a, ha, hsome, hmax⟩
  · refine Or.inr ⟨?_, ?_⟩
    · rintro ⟨-, name, hname, -⟩
      simp [raws] at hname
    · simp only [hnone]
      exact ⟨_, rfl⟩
  · have hsel := selected_newest ha hmax
    refine Or.inl ⟨⟨by simp, a.raw, (hsel _).mp rfl⟩, [a.timestamp], ?_, ?_, ?_⟩
    · simp only [hsome]
    · intro name
      rw [← hsel name]
      simp [VolumeArchive.raw]
    · intro t ht
      exact ⟨a, ha, (List.mem_singleton.mp ht).symm⟩

theorem resolveTargets_filtered {archives : List VolumeArchive} {snapshots : List String}
    {lo hi : Option String} (hfilter : ¬ (snapshots = [] ∧ lo = none ∧ hi = none)) :
    ResolvesOrRefuses archives snapshots lo hi := by
  have hcond : (!(!snapshots.isEmpty) && !(lo.isSome || hi.isSome)) = false := by
    cases snapshots <;> cases lo <;> cases hi <;> simp_all
  unfold ResolvesOrRefuses resolveTargets
  simp only [hcond, Bool.false_eq_true, if_false]
  rcases foldlM_addExplicit snapshots (TargetsOf.empty archives) with
    ⟨hall, st, hok, ht⟩ | ⟨⟨n, hn, hna⟩, e, herr⟩
  · simp only [hok]
    -- the list before sorting, whichever way the range test goes
    generalize hfin : (if (lo.isSome || hi.isSome) = true then
        archives.foldl (addInRange lo hi) st else st) = fin
    have hfinT : TargetsOf archives (Selected archives snapshots lo hi) fin := by
      have hrange := selected_filtered hfilter hall
      rw [← hfin]
      split_ifs with hb
      · exact (foldl_addInRange archives (fun _ ha => ha) ht).congr
          (fun name => by rw [hrange name]; simp [hb])
      · exact ht.congr (fun name => by rw [hrange name]; simp [hb])
    split_ifs with hempty
    · rw [List.isEmpty_iff] at hempty
      refine Or.inr ⟨?_, _, rfl⟩
      rintro ⟨-, name, hname⟩
      have hmem := (hfinT.names name).mpr hname
      simp [hempty] at hmem
    · rw [List.isEmpty_iff] at hempty
      obtain ⟨t, ts, hts⟩ := List.exists_cons_of_ne_nil hempty
      have hsome := (hfinT.names t.raw).mp (by simp [hts])
      refine Or.inl ⟨⟨hall, t.raw, hsome⟩, _, rfl, ?_, ?_⟩
      · intro name
        rw [← hfinT.names name]
        simp
      · intro u hu
        exact hfinT.archived u (by simpa using hu)
  · refine Or.inr ⟨fun h => hna (h.1 n hn), e, ?_⟩
    simp only [herr]

theorem resolveTargets_cases (archives : List VolumeArchive) (snapshots : List String)
    (lo hi : Option String) : ResolvesOrRefuses archives snapshots lo hi := by
  by_cases hdefault : snapshots = [] ∧ lo = none ∧ hi = none
  · obtain ⟨rfl, rfl, rfl⟩ := hdefault
    exact resolveTargets_default archives
  · exact resolveTargets_filtered hdefault

theorem resolveTargets_archived {archives : List VolumeArchive} {snapshots : List String}
    {lo hi : Option String} {targets : List Timestamp}
    (h : resolveTargets archives snapshots lo hi = .ok targets) :
    ∀ t ∈ targets, ∃ a ∈ archives, a.timestamp = t := by
  rcases resolveTargets_cases archives snapshots lo hi with
    ⟨-, targets', hok, -, harch⟩ | ⟨-, e, herr⟩
  · obtain rfl : targets' = targets := by simpa [hok] using h
    exact harch
  · simp [herr] at h

/-! ## Steps -/

/-- The merged steps are those of the lineages of the targets merged so far. -/
structure Merged (archives : List VolumeArchive) (targets : List Timestamp)
    (st : Finset String × List RestoreStep) : Prop where
  unseen : Unseen (·.snap.raw) st
  names : ∀ name, name ∈ st.2.map (·.snap.raw) ↔
    ∃ t ∈ targets, ∃ l, Lineage (parentForest archives) t.raw l ∧ name ∈ l
  receives : ∀ s ∈ st.2, Receives archives s

/-- One target brings in its lineage. -/
theorem Merged.mergeTarget {archives : List VolumeArchive} (hc : Coherent archives)
    {targets : List Timestamp} {st : Finset String × List RestoreStep}
    (h : Merged archives targets st) {a : VolumeArchive} (ha : a ∈ archives) :
    ∃ st', mergeTarget archives st a.timestamp = .ok st' ∧
      Merged archives (targets ++ [a.timestamp]) st' := by
  obtain ⟨plan, hplan, hl, hrec⟩ := buildRestorePlan_lineage hc ha
  obtain ⟨hu, hkeys, hmem⟩ := foldl_pushUnseen h.unseen plan.steps
  refine ⟨_, by simp only [Bbkar.mergeTarget, hplan], hu, ?_, ?_⟩
  · intro name
    rw [hkeys, h.names]
    constructor
    · rintro (⟨t, ht, l, hlt, hn⟩ | hn)
      · exact ⟨t, by simp [ht], l, hlt, hn⟩
      · exact ⟨a.timestamp, by simp, _, hl, hn⟩
    · rintro ⟨t, ht, l, hlt, hn⟩
      rcases List.mem_append.mp ht with ht | ht
      · exact Or.inl ⟨t, ht, l, hlt, hn⟩
      · obtain rfl := List.mem_singleton.mp ht
        exact Or.inr (hl.unique hlt ▸ hn)
  · intro s hs
    rcases hmem s hs with hs | hs
    · exact h.receives s hs
    · exact hrec s hs

theorem foldlM_mergeTarget {archives : List VolumeArchive} (hc : Coherent archives)
    (rest : List Timestamp) (hrest : ∀ t ∈ rest, ∃ a ∈ archives, a.timestamp = t)
    {targets : List Timestamp} {st : Finset String × List RestoreStep}
    (h : Merged archives targets st) :
    ∃ st', rest.foldlM (mergeTarget archives) st = .ok st' ∧
      Merged archives (targets ++ rest) st' := by
  induction rest generalizing targets st with
  | nil => exact ⟨st, rfl, by simpa using h⟩
  | cons t rest ih =>
    obtain ⟨a, ha, rfl⟩ := hrest t (by simp)
    obtain ⟨st₁, hok, hm⟩ := h.mergeTarget hc ha
    obtain ⟨st', hok', hm'⟩ := ih (fun u hu => hrest u (List.mem_cons_of_mem _ hu)) hm
    refine ⟨st', ?_, by simpa using hm'⟩
    simp only [List.foldlM_cons, hok, bind, Except.bind]
    exact hok'

/-- The steps restore the targets and what they depend on, and nothing else. -/
structure RestoresClosure (archives : List VolumeArchive) (targets : String → Prop)
    (steps : List RestoreStep) : Prop where
  nodup : (steps.map (·.snap.raw)).Nodup
  closure : ∀ name, name ∈ steps.map (·.snap.raw) ↔
    Closure (parentForest archives) targets name
  receives : ∀ s ∈ steps, Receives archives s
  parentFirst : ∀ before step after p, steps = before ++ step :: after →
    step.parent = some p → ∃ s ∈ before, s.snap = p

/-- Sorting by timestamp puts the step of a parent before the steps that need it. -/
theorem Merged.restoresClosure {archives : List VolumeArchive} (hc : Coherent archives)
    {targets : List Timestamp} {st : Finset String × List RestoreStep}
    (h : Merged archives targets st) :
    RestoresClosure archives (· ∈ targets.map Timestamp.raw) (sortByKey (·.snap) st.2) := by
  have hnames : ∀ name, name ∈ (sortByKey (·.snap) st.2).map (·.snap.raw) ↔
      Closure (parentForest archives) (· ∈ targets.map Timestamp.raw) name := by
    intro name
    rw [((sortByKey_perm _ _).map _).mem_iff, h.names]
    simp [Closure]
  have hrec : ∀ s ∈ sortByKey (·.snap) st.2, Receives archives s := by simpa using h.receives
  refine ⟨((sortByKey_perm _ _).map _).nodup_iff.mpr h.unseen.nodup, hnames, hrec, ?_⟩
  intro before step after p hsplit hp
  obtain ⟨a, ha, hsnap, hparent, hparsed⟩ := hrec step (by rw [hsplit]; simp)
  simp only [hp, Option.map_some] at hparent
  -- the parent lies in the closure with its child, hence has a step of its own
  have hedge : Parent (parentForest archives) step.snap.raw p.raw :=
    (parentForest_eq_some hc.nodup).mpr ⟨a, ha, by rw [← hsnap]; rfl, hparent⟩
  have hclosed := closure_ancestorClosed _ _ step.snap.raw p.raw
    ((hnames _).mp (List.mem_map.mpr ⟨step, by rw [hsplit]; simp, rfl⟩)) hedge
  obtain ⟨s, hs, hsraw⟩ := List.mem_map.mp ((hnames _).mpr hclosed)
  obtain ⟨b, hb, hbs, -⟩ := hrec s hs
  have hsp : s.snap = p := (hbs ▸ hc.parsed b hb).ext (hparsed p hp) hsraw
  refine ⟨s, ?_, hsp⟩
  -- it is older, so it stands before
  have hlt : s.snap < step.snap := by
    apply Timestamp.lt_of_raw_lt
    rw [hsp, ← hsnap]
    exact (hc.parent a ha _ hparent).1
  have hsorted := sortByKey_sorted (·.snap) st.2
  rw [hsplit] at hs hsorted
  rcases List.mem_append.mp hs with hs | hs
  · exact hs
  · rcases List.mem_cons.mp hs with rfl | hs
    · exact absurd hlt (lt_irrefl _)
    · have hle := (List.pairwise_cons.mp (List.pairwise_append.mp hsorted).2.1).1 s hs
      exact absurd hlt (not_lt.mpr hle)

/-- The steps prepared for accepted targets are their closure, parents first. -/
theorem prepareRestore_of_targets {m : DestMeta} (hc : Coherent m.archives) (volume : String)
    (rootEntries : Finset String) {snapshots : List String} {lo hi : Option String}
    {targets : List Timestamp}
    (hok : resolveTargets m.archives snapshots lo hi = .ok targets) :
    ∃ steps, prepareRestore volume ⟨some m⟩ rootEntries snapshots lo hi =
        .ok ⟨volume, m, steps, rootEntries⟩ ∧
      RestoresClosure m.archives (· ∈ targets.map Timestamp.raw) steps := by
  have hempty : Merged m.archives [] (∅, []) := ⟨Unseen.empty _, by simp, by simp⟩
  obtain ⟨st, hst, hm⟩ := foldlM_mergeTarget hc targets (resolveTargets_archived hok) hempty
  rw [List.nil_append] at hm
  exact ⟨_, by simp only [prepareRestore, hok, hst], hm.restoresClosure hc⟩

/-- Preparing a restore fails exactly on a selection that names or picks nothing archived.
Otherwise its steps are the closure of the selected archives, parents first. -/
theorem prepareRestore_closure {m : DestMeta} (hc : Coherent m.archives) (volume : String)
    (rootEntries : Finset String) (snapshots : List String) (lo hi : Option String) :
    (Selectable m.archives snapshots lo hi →
      ∃ restore, prepareRestore volume ⟨some m⟩ rootEntries snapshots lo hi = .ok restore ∧
        RestoresClosure m.archives (Selected m.archives snapshots lo hi) restore.steps) ∧
    (¬ Selectable m.archives snapshots lo hi →
      ∃ e, prepareRestore volume ⟨some m⟩ rootEntries snapshots lo hi = .error (.err e)) := by
  rcases resolveTargets_cases m.archives snapshots lo hi with
    ⟨hsel, targets, hok, hnames, -⟩ | ⟨hsel, e, herr⟩
  · refine ⟨fun _ => ?_, fun h => absurd hsel h⟩
    obtain ⟨steps, hprepare, hclosure⟩ := prepareRestore_of_targets hc volume rootEntries hok
    refine ⟨_, hprepare, ?_⟩
    rwa [show (· ∈ targets.map Timestamp.raw) = Selected m.archives snapshots lo hi from
      funext fun name => propext (hnames name)] at hclosure
  · refine ⟨fun h => absurd h hsel, fun _ => ⟨e, ?_⟩⟩
    simp only [prepareRestore, herr]

def chainMeta : DestMeta :=
  DestMeta.new 0 0 [⟨.plain "20230101", none, []⟩, ⟨.plain "20230102", some "20230101", []⟩]

theorem chainMeta_coherent : Coherent chainMeta.archives := by
  refine ⟨⟨by decide, ?_⟩, by decide⟩
  intro a ha p hp
  have hparents : ∀ a ∈ chainMeta.archives, ∀ q ∈ a.parentTimestamp,
      q < a.raw ∧ ∃ b ∈ chainMeta.archives, b.raw = q := by decide
  exact hparents a ha p hp

/-- The default selection of a chain of two. -/
theorem prepareRestore_closure_chain :
    (Selectable chainMeta.archives [] none none →
      ∃ restore, prepareRestore "root" ⟨some chainMeta⟩ ∅ [] none none = .ok restore ∧
        RestoresClosure chainMeta.archives (Selected chainMeta.archives [] none none)
          restore.steps) ∧
    (¬ Selectable chainMeta.archives [] none none →
      ∃ e, prepareRestore "root" ⟨some chainMeta⟩ ∅ [] none none = .error (.err e)) :=
  prepareRestore_closure chainMeta_coherent "root" ∅ [] none none

end Bbkar
