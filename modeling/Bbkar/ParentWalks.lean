import Bbkar.PlanDates
import Bbkar.RestoreClosure

/-!
# Which parent walks end

Metadata can name any parents: missing ones, later ones, an archive itself. Planning a run
follows the last archive of a name and ends unless these parents form a cycle somewhere.
Planning a restore follows the first archive of a name, and a missing parent is reported.
A cycle is not, and an empty parent that does exist makes it panic.
-/
namespace Bbkar
open Relation Function Walks

/-! ## Depths -/

/-- Every walk over parents that starts at the name ends. -/
abbrev EndsAbove (archives : List VolumeArchive) (name : String) : Prop :=
  Acc (fun p x => LastParent archives x p) name

theorem endsAbove_of_no_parent {archives : List VolumeArchive} {name : String}
    (h : (archiveMapOf archives name).bind (·.parentTimestamp) = none) :
    EndsAbove archives name := by
  refine ⟨_, ?_⟩
  rintro p ⟨a, hx, hp⟩
  simp [hx, hp] at h

theorem endsAbove_of_parent {archives : List VolumeArchive} {name p : String}
    (h : LastParent archives name p) (hp : EndsAbove archives p) : EndsAbove archives name := by
  refine ⟨_, ?_⟩
  rintro q ⟨a, hx, hq⟩
  obtain ⟨b, hx', hp'⟩ := h
  obtain rfl := Option.some.inj (hx.symm.trans hx')
  obtain rfl := Option.some.inj (hq.symm.trans hp')
  exact hp

/-- A depth is only found, and only stored, where the walk ends. -/
theorem computeDepth_endsAbove {archives : List VolumeArchive} {fuel : ℕ} {name : String}
    {cache : String → Option ℕ} {r : ℕ × (String → Option ℕ)}
    (hc : ∀ n d, cache n = some d → EndsAbove archives n)
    (h : computeDepth (archiveMapOf archives) fuel name cache = .ok r) :
    EndsAbove archives name ∧ ∀ n d, r.2 n = some d → EndsAbove archives n := by
  induction fuel using Nat.strong_induction_on generalizing name r with
  | _ fuel ih =>
    have hinsert : ∀ (c : String → Option ℕ) (d : ℕ), EndsAbove archives name →
        (∀ n d, c n = some d → EndsAbove archives n) →
        ∀ n e, update c name (some d) n = some e → EndsAbove archives n := by
      intro c d hname hc n e he
      rw [update_apply] at he
      split_ifs at he with hn
      · exact hn ▸ hname
      · exact hc n e he
    rcases computeDepth_cases h with ⟨hget, hcache⟩ | ⟨-, hp, rfl⟩ |
      ⟨-, a, p, n, r', hx, hp, hfuel, hr, rfl⟩
    · rw [hcache]
      exact ⟨hc _ _ hget, hc⟩
    · have hname := endsAbove_of_no_parent hp
      exact ⟨hname, hinsert _ _ hname hc⟩
    · obtain ⟨habove, hc'⟩ := ih n (by omega) hr
      have hname := endsAbove_of_parent ⟨a, hx, hp⟩ habove
      exact ⟨hname, hinsert _ _ hname hc'⟩

theorem depthCalls_endsAbove {archives order : List VolumeArchive}
    {cache cache' : String → Option ℕ} (hc : ∀ n d, cache n = some d → EndsAbove archives n)
    (h : depthCalls archives order cache = .ok cache') :
    ∀ a ∈ order, EndsAbove archives a.raw := by
  induction order generalizing cache with
  | nil => simp
  | cons b order ih =>
    rw [depthCalls_cons] at h
    split at h
    · cases h
    · next r hd =>
      obtain ⟨hb, hc'⟩ := computeDepth_endsAbove hc hd
      intro a ha
      rcases List.mem_cons.mp ha with rfl | ha
      · exact hb
      · exact ih hc' h a ha

theorem depthCalls_error {archives order : List VolumeArchive} {cache : String → Option ℕ}
    {e : Halt} (h : depthCalls archives order cache = .error e) : e = .diverges := by
  induction order generalizing cache with
  | nil => cases h
  | cons b order ih =>
    rw [depthCalls_cons] at h
    split at h
    · next e' hd =>
      cases h
      exact (computeDepth_error hd).1
    · exact ih h

/-- The depths of all archives are found exactly when the recorded parents have no cycle. -/
theorem depthCacheOf_diverges_iff {archives : List VolumeArchive} :
    depthCacheOf archives = .error .diverges ↔ ∃ x, TransGen (LastParent archives) x x := by
  constructor
  · intro h
    by_contra hn
    rw [not_exists] at hn
    obtain ⟨cache, hok⟩ := depthCacheOf_isOk_of_acyclic hn
    simp [h] at hok
  · rintro ⟨x, hx⟩
    cases h : depthCacheOf archives with
    | error e => rw [depthCalls_error h]
    | ok cache =>
      obtain ⟨y, hxy, -⟩ := TransGen.head'_iff.mp hx
      obtain ⟨a, ha, rfl⟩ := mem_raws.mp hxy.mem_raws
      have hends := depthCalls_endsAbove (by simp) h a ha
      exact absurd hx (not_cycle_of_acc hends .refl)

/-! ## Run plans -/

theorem parseDateToDays_error {t : Timestamp} {e : Halt}
    (h : parseDateToDays t.timestamp = .error e) : e = .panic := by
  by_cases hshort : utf8Len t.timestamp.toList < 8
  · simp [parseDateToDays, hshort, pure, Except.pure] at h
  rcases parseDateToDays_cases hshort with
    ⟨hpanic, -⟩ | ⟨_, _, -, ⟨-, hok⟩ | ⟨_, _, _, -, -, hok⟩⟩
  · exact (Except.error.inj (hpanic.symm.trans h)).symm
  · simp [hok] at h
  · simp [hok] at h

theorem checkIntervalExceeded_error {lastFull : Option Timestamp} {s : Timestamp}
    {interval : CalendarDuration} {e : Halt}
    (h : checkIntervalExceeded lastFull s interval = .error e) : e = .panic := by
  cases lastFull with
  | none => simp [checkIntervalExceeded, pure, Except.pure] at h
  | some l =>
    simp only [checkIntervalExceeded, bind, Except.bind] at h
    cases hl : parseDateToDays l.timestamp with
    | error e' =>
      simp only [hl, Except.error.injEq] at h
      exact h ▸ parseDateToDays_error hl
    | ok days =>
      cases days with
      | none => simp [hl, pure, Except.pure] at h
      | some d =>
        cases hs : parseDateToDays s.timestamp with
        | error e' =>
          simp only [hl, hs, Except.error.injEq] at h
          exact h ▸ parseDateToDays_error hs
        | ok days => cases days <;> simp [hl, hs, pure, Except.pure] at h

/-- The loop can only fail by reading a date. -/
theorem planLoop_error {policy : SendPolicy} {src : SourceState} {snaps : List Timestamp}
    {st : PlanState} {e : Halt} (h : planLoop policy src snaps st = .error e) : e = .panic := by
  induction snaps generalizing st with
  | nil => cases h
  | cons snap snaps ih =>
    rw [planLoop_cons] at h
    cases hstep : planSnapshot policy src (srcNamesOf src) st snap with
    | ok st' =>
      rw [hstep] at h
      exact ih h
    | error e' =>
      obtain rfl : e' = e := by
        rw [hstep] at h
        exact Except.error.inj h
      by_cases hin : snap.raw ∈ st.destSet
      · simp [planSnapshot_skip hin] at hstep
      cases hp : findParentCandidate snap st.destSet (srcNamesOf src) src with
      | none => simp [planSnapshot_no_parent hin hp] at hstep
      | some p =>
        rw [planSnapshot_candidate hin hp, decideFull] at hstep
        cases hcheck : checkIntervalExceeded st.lastFull snap policy.minFullSendInterval with
        | ok b => simp [hcheck, Except.map] at hstep
        | error e'' =>
          simp only [hcheck, Except.map, Except.error.injEq] at hstep
          exact hstep ▸ checkIntervalExceeded_error hcheck

/-- Planning a run ends unless the recorded parents have a cycle. -/
theorem buildPlan_diverges_iff {src : SourceState} {dest : DestState} {policy : SendPolicy} :
    buildPlan src dest policy = .error .diverges ↔
      ∃ x, TransGen (LastParent dest.archives) x x := by
  rw [← depthCacheOf_diverges_iff]
  unfold buildPlan initialPlanState
  cases hd : depthCacheOf dest.archives with
  | error e => simp [Except.map, bind, Except.bind]
  | ok cache =>
    simp only [Except.map, bind, Except.bind, reduceCtorEq, iff_false]
    intro h
    split at h
    · rename_i e hl
      obtain rfl := planLoop_error hl
      cases h
    · cases h

/-! ## Restore plans -/

/-- The walk goes from `a` to the first archive that has the name of its parent. -/
def FirstParent (archives : List VolumeArchive) (a b : VolumeArchive) : Prop :=
  ∃ p, a.parentTimestamp = some p ∧ archives.find? (fun c => c.raw == p) = some b

theorem FirstParent.mem {archives : List VolumeArchive} {a b : VolumeArchive}
    (h : FirstParent archives a b) : b ∈ archives ∧ a.parentTimestamp = some b.raw := by
  obtain ⟨p, hp, hb⟩ := h
  have hraw : b.raw = p := by simpa using List.find?_some hb
  exact ⟨List.mem_of_find?_eq_some hb, hraw ▸ hp⟩

theorem FirstParent.unique {archives : List VolumeArchive} {a b c : VolumeArchive}
    (hb : FirstParent archives a b) (hc : FirstParent archives a c) : b = c := by
  obtain ⟨p, hp, hb⟩ := hb
  obtain ⟨q, hq, hc⟩ := hc
  obtain rfl := Option.some.inj (hp.symm.trans hq)
  exact Option.some.inj (hb.symm.trans hc)

theorem parentWalk_step {archives chain : List VolumeArchive} {fuel : ℕ}
    {a b : VolumeArchive} (h : FirstParent archives a b) :
    parentWalk archives (fuel + 1) chain a = parentWalk archives fuel (b :: chain) b := by
  obtain ⟨p, hp, hb⟩ := h
  rw [parentWalk]
  simp only [hp, hb]

theorem parentWalk_missing {archives chain : List VolumeArchive} {fuel : ℕ}
    {a : VolumeArchive} (hp : a.parentTimestamp ≠ none) (h : ∀ b, ¬ FirstParent archives a b) :
    ∃ msg, parentWalk archives (fuel + 1) chain a = .error (.err (.plan msg)) := by
  obtain ⟨p, hp⟩ := Option.ne_none_iff_exists'.mp hp
  have hfind : archives.find? (fun c => c.raw == p) = none := by
    cases hf : archives.find? (fun c => c.raw == p) with
    | none => rfl
    | some b => exact absurd ⟨p, hp, hf⟩ (h b)
  rw [parentWalk]
  simp only [hp, hfind]
  exact ⟨_, rfl⟩

/-- The archives above `current`, from a full one down to it, put in front of the chain. -/
def WalksUp (archives : List VolumeArchive) (current : VolumeArchive)
    (chain chain' : List VolumeArchive) : Prop :=
  ∃ above, chain' = above ++ chain ∧
    (above ++ [current]).IsChain (fun b a => FirstParent archives a b) ∧
    ∀ full ∈ (above ++ [current]).head?, full.parentTimestamp = none

/-- How the walk can end: at a full archive, at a missing parent, or not at all. -/
theorem parentWalk_cases (archives : List VolumeArchive) (fuel : ℕ)
    (chain : List VolumeArchive) (current : VolumeArchive) :
    (∃ chain', parentWalk archives fuel chain current = .ok chain' ∧
      WalksUp archives current chain chain') ∨
    (∃ msg, parentWalk archives fuel chain current = .error (.err (.plan msg)) ∧
      ∃ below last, (current :: below).IsChain (FirstParent archives) ∧
        (current :: below).getLast? = some last ∧ last.parentTimestamp ≠ none ∧
        ∀ b, ¬ FirstParent archives last b) ∨
    (parentWalk archives fuel chain current = .error .diverges ∧
      ∃ above, (current :: above).IsChain (FirstParent archives) ∧ above.length = fuel) := by
  induction fuel generalizing chain current with
  | zero =>
    unfold parentWalk
    cases hp : current.parentTimestamp with
    | none => exact Or.inl ⟨chain, rfl, [], by simp, by simp, by simpa using hp⟩
    | some p => exact Or.inr (Or.inr ⟨rfl, [], by simp, rfl⟩)
  | succ fuel ih =>
    by_cases hp : current.parentTimestamp = none
    · refine Or.inl ⟨chain, ?_, [], by simp, by simp, by simpa using hp⟩
      unfold parentWalk
      simp [hp]
    by_cases hend : ∀ b, ¬ FirstParent archives current b
    · obtain ⟨msg, hmsg⟩ := parentWalk_missing hp hend
      exact Or.inr (Or.inl ⟨msg, hmsg, [], current, by simp, by simp, hp, hend⟩)
    rw [not_forall] at hend
    obtain ⟨parent, hstep⟩ := hend
    rw [not_not] at hstep
    rw [parentWalk_step hstep]
    rcases ih (parent :: chain) parent with ⟨chain', hok, above, rfl, hchain, hfull⟩ |
      ⟨msg, herr, below, last, hchain, hlast, hnone, hend⟩ | ⟨hdiv, above, hchain, hlen⟩
    · have hpair : ([parent] ++ [current]).IsChain (fun b a => FirstParent archives a b) := by
        simpa using hstep
      refine Or.inl ⟨_, hok, above ++ [parent], by simp, ?_, ?_⟩
      · exact hchain.append_overlap hpair (by simp)
      · intro full hmem
        refine hfull full ?_
        rwa [List.head?_append_of_ne_nil _ (by simp)] at hmem
    · exact Or.inr (Or.inl ⟨msg, herr, parent :: below, last, hchain.cons_cons hstep,
        by simpa using hlast, hnone, hend⟩)
    · exact Or.inr (Or.inr ⟨hdiv, parent :: above, hchain.cons_cons hstep, by simp [hlen]⟩)

/-- From a node whose walk ends in `last`, everything reached lies on that walk. -/
theorem mem_of_reflTransGen {archives below : List VolumeArchive} {a b last : VolumeArchive}
    (hchain : (a :: below).IsChain (FirstParent archives))
    (hlast : (a :: below).getLast? = some last) (hend : ∀ c, ¬ FirstParent archives last c)
    (h : ReflTransGen (FirstParent archives) a b) : b ∈ a :: below := by
  induction below generalizing a with
  | nil =>
    obtain rfl : a = last := by simpa using hlast
    rcases ReflTransGen.cases_head h with rfl | ⟨c, hc, -⟩
    · simp
    · exact absurd hc (hend c)
  | cons c below ih =>
    obtain ⟨hac, hrest⟩ := List.isChain_cons_cons.mp hchain
    rcases ReflTransGen.cases_head h with rfl | ⟨d, had, hdb⟩
    · simp
    · obtain rfl := hac.unique had
      exact List.mem_cons_of_mem _ (ih hrest (by simpa using hlast) hdb)

theorem mem_archives_of_reached {archives : List VolumeArchive} {a b : VolumeArchive}
    (ha : a ∈ archives) (h : ReflTransGen (FirstParent archives) a b) : b ∈ archives := by
  rcases ReflTransGen.cases_tail h with rfl | ⟨c, -, hcb⟩
  · exact ha
  · exact hcb.mem.1

/-- Such a walk cannot come back to an archive. -/
theorem acc_of_walk {archives below : List VolumeArchive} {a last : VolumeArchive}
    (hchain : (a :: below).IsChain (FirstParent archives))
    (hlast : (a :: below).getLast? = some last) (hend : ∀ c, ¬ FirstParent archives last c) :
    Acc (fun b a => FirstParent archives a b) a := by
  induction below generalizing a with
  | nil =>
    obtain rfl : a = last := by simpa using hlast
    exact ⟨_, fun b hb => absurd hb (hend b)⟩
  | cons c below ih =>
    obtain ⟨hac, hrest⟩ := List.isChain_cons_cons.mp hchain
    have hc := ih hrest (by simpa using hlast)
    exact ⟨_, fun b hb => hac.unique hb ▸ hc⟩

/-- A chain from a full archive down to `a`, read as the walk up from `a`. -/
theorem walk_of_chain {archives above : List VolumeArchive} {a : VolumeArchive}
    (hchain : (above ++ [a]).IsChain (fun b a => FirstParent archives a b))
    (hfull : ∀ full ∈ (above ++ [a]).head?, full.parentTimestamp = none) :
    ∃ full, (a :: above.reverse).IsChain (FirstParent archives) ∧
      (a :: above.reverse).getLast? = some full ∧ full.parentTimestamp = none ∧
      ∀ c, ¬ FirstParent archives full c := by
  obtain ⟨full, hhead⟩ : ∃ full, (above ++ [a]).head? = some full := by
    cases above <;> simp
  have hroot := hfull full hhead
  refine ⟨full, by simpa using List.isChain_reverse.mpr hchain, ?_, hroot, ?_⟩
  · rw [← hhead, ← List.getLast?_reverse, List.reverse_append]
    rfl
  · rintro c ⟨p, hp, -⟩
    simp [hroot] at hp

/-! ## The steps of the chain -/

/-- What a step keeps of the archive that it receives. -/
def RestoreStep.recorded (step : RestoreStep) : Timestamp × Option String :=
  (step.snap, step.parent.map Timestamp.raw)

theorem restoreStepOf_cases (a : VolumeArchive) :
    (a.parentTimestamp = some "" ∧ restoreStepOf a = .error .panic) ∨
    (a.parentTimestamp ≠ some "" ∧ ∃ step, restoreStepOf a = .ok step ∧
      step.recorded = (a.timestamp, a.parentTimestamp) ∧
      ∀ p, step.parent = some p → p.Parsed) := by
  unfold restoreStepOf
  cases hp : a.parentTimestamp with
  | none =>
    exact Or.inr ⟨by simp, _, rfl, by simp [RestoreStep.recorded, RestoreStep.parent],
      by simp [RestoreStep.parent]⟩
  | some parent =>
    by_cases hempty : parent = ""
    · exact Or.inl ⟨by rw [hempty], by simp [hempty, Timestamp.parse, orPanic, Except.map]⟩
    · obtain ⟨t, ht⟩ := Timestamp.parse_isSome hempty
      have hraw := Timestamp.parse_raw ht
      refine Or.inr ⟨by simpa using hempty, .receiveIncremental a.timestamp t,
        by simp [ht, orPanic, Except.map], by simp [RestoreStep.recorded, RestoreStep.parent, hraw],
        ?_⟩
      rintro p hp
      obtain rfl : t = p := by simpa [RestoreStep.parent] using hp
      exact Timestamp.parsed_of_parse ht

/-- The unwrapped parents are the only way for the steps of a chain to fail. -/
theorem mapM_restoreStepOf_cases (chain : List VolumeArchive) :
    ((∃ a ∈ chain, a.parentTimestamp = some "") ∧ chain.mapM restoreStepOf = .error .panic) ∨
    ((∀ a ∈ chain, a.parentTimestamp ≠ some "") ∧ ∃ steps,
      chain.mapM restoreStepOf = .ok steps ∧
      steps.map RestoreStep.recorded = chain.map (fun a => (a.timestamp, a.parentTimestamp)) ∧
      ∀ step ∈ steps, ∀ p, step.parent = some p → p.Parsed) := by
  induction chain with
  | nil => exact Or.inr ⟨by simp, [], rfl, rfl, by simp⟩
  | cons a chain ih =>
    rcases restoreStepOf_cases a with ⟨hempty, hstep⟩ | ⟨hne, step, hstep, hrec, hparsed⟩
    · exact Or.inl ⟨⟨a, by simp, hempty⟩, by simp [List.mapM_cons, hstep, bind, Except.bind]⟩
    · rcases ih with ⟨⟨b, hb, hempty⟩, hsteps⟩ | ⟨hall, steps, hsteps, hrecs, hparseds⟩
      · exact Or.inl ⟨⟨b, List.mem_cons_of_mem _ hb, hempty⟩,
          by simp [List.mapM_cons, hstep, hsteps, bind, Except.bind]⟩
      · refine Or.inr ⟨List.forall_mem_cons.mpr ⟨hne, hall⟩, step :: steps, ?_,
          by simp [hrec, hrecs], List.forall_mem_cons.mpr ⟨hparsed, hparseds⟩⟩
        simp [List.mapM_cons, hstep, hsteps, bind, Except.bind, pure, Except.pure]

/-- Steps from a full archive down to the target, each on the one before it. -/
structure ChainTo (archives : List VolumeArchive) (target : Timestamp)
    (steps : List RestoreStep) : Prop where
  full : ∃ s, steps.head? = some (.receiveFull s)
  linked : steps.IsChain (fun s t => t.parent.map Timestamp.raw = some s.snap.raw)
  target : steps.getLast?.map RestoreStep.snap = some target
  receives : ∀ step ∈ steps, Receives archives step

theorem chainTo_of_walk {archives above : List VolumeArchive} {a : VolumeArchive}
    (hmem : ∀ b ∈ above ++ [a], b ∈ archives)
    (hchain : (above ++ [a]).IsChain (fun b a => FirstParent archives a b))
    (hfull : ∀ full ∈ (above ++ [a]).head?, full.parentTimestamp = none)
    {steps : List RestoreStep}
    (hrec : steps.map RestoreStep.recorded =
      (above ++ [a]).map (fun b => (b.timestamp, b.parentTimestamp)))
    (hparsed : ∀ step ∈ steps, ∀ p, step.parent = some p → p.Parsed) :
    ChainTo archives a.timestamp steps := by
  constructor
  · obtain ⟨full, hhead⟩ : ∃ full, (above ++ [a]).head? = some full := by
      cases above <;> simp
    have hstep := congrArg List.head? hrec
    rw [List.head?_map, List.head?_map, hhead, Option.map_some, Option.map_eq_some_iff] at hstep
    obtain ⟨step, hs, heq⟩ := hstep
    have hnone := congrArg Prod.snd heq
    rw [hfull full hhead] at hnone
    cases step with
    | receiveFull s => exact ⟨s, hs⟩
    | receiveIncremental s p => simp [RestoreStep.recorded, RestoreStep.parent] at hnone
  · have hlinked : (steps.map RestoreStep.recorded).IsChain (fun s t => t.2 = some s.1.raw) := by
      rw [hrec, List.isChain_map]
      exact hchain.imp fun _ _ h => h.mem.2
    rwa [List.isChain_map] at hlinked
  · have hlast := congrArg List.getLast? hrec
    rw [List.getLast?_map, List.getLast?_map, List.getLast?_concat, Option.map_some,
      Option.map_eq_some_iff] at hlast
    obtain ⟨step, hs, heq⟩ := hlast
    rw [hs, Option.map_some]
    exact congrArg some (congrArg Prod.fst heq)
  · intro step hstep
    have hmap : step.recorded ∈ steps.map RestoreStep.recorded := List.mem_map_of_mem hstep
    rw [hrec, List.mem_map] at hmap
    obtain ⟨b, hb, heq⟩ := hmap
    exact ⟨b, hmem b hb, congrArg Prod.fst heq, congrArg Prod.snd heq, hparsed step hstep⟩

/-- The plan is a chain from a full archive to the target, or the planner refuses. -/
def RestoresOrRefuses (archives : List VolumeArchive) (target : Timestamp) : Prop :=
  (∃ plan, buildRestorePlan archives target = .ok plan ∧
      ChainTo archives target plan.steps) ∨
    ∃ msg, buildRestorePlan archives target = .error (.err (.plan msg))

/-- The walk does not come back to an archive, and if it ends at a full one then no parent
on it is the empty name. -/
structure WalkEnds (archives : List VolumeArchive) (a : VolumeArchive) : Prop where
  acyclic : ∀ b, ReflTransGen (FirstParent archives) a b →
    ¬ TransGen (FirstParent archives) b b
  named : ∀ b full, ReflTransGen (FirstParent archives) a b →
    ReflTransGen (FirstParent archives) a full → full.parentTimestamp = none →
    b.parentTimestamp ≠ some ""

theorem restoresOrRefuses_iff {archives : List VolumeArchive} {target : Timestamp} :
    RestoresOrRefuses archives target ↔
      ∀ a, archives.find? (fun a => a.timestamp == target) = some a → WalkEnds archives a := by
  unfold RestoresOrRefuses buildRestorePlan
  cases hfind : archives.find? (fun a => a.timestamp == target) with
  | none => simp
  | some a =>
    have ha : a ∈ archives := List.mem_of_find?_eq_some hfind
    obtain rfl : a.timestamp = target := by simpa using List.find?_some hfind
    simp only [Option.some.injEq, forall_eq']
    rcases parentWalk_cases archives archives.length [a] a with
      ⟨chain, hok, above, rfl, hchain, hfull⟩ |
      ⟨msg, herr, below, last, hchain, hlast, hnone, hend⟩ | ⟨hdiv, above, hchain, hlen⟩
    · -- the chain ends at a full archive, and only an empty name can be in the way
      obtain ⟨full, hdown, hlast, hroot, hend⟩ := walk_of_chain hchain hfull
      have hmem : ∀ b, b ∈ above ++ [a] ↔ ReflTransGen (FirstParent archives) a b := by
        intro b
        have hperm : b ∈ above ++ [a] ↔ b ∈ a :: above.reverse := by
          simp [or_comm]
        rw [hperm]
        exact ⟨reflTransGen_of_mem hdown, mem_of_reflTransGen hdown hlast hend⟩
      have hreached := reflTransGen_of_mem hdown (List.mem_of_getLast? hlast)
      rcases mapM_restoreStepOf_cases (above ++ [a]) with
        ⟨⟨b, hb, hempty⟩, hsteps⟩ | ⟨hne, steps, hsteps, hrec, hparsed⟩
      · refine iff_of_false (by simp [hok, hsteps, bind, Except.bind]) fun hends => ?_
        exact hends.named b full ((hmem b).mp hb) hreached hroot hempty
      · refine iff_of_true (Or.inl ⟨⟨steps⟩, ?_, ?_⟩) ⟨?_, ?_⟩
        · simp [hok, hsteps, bind, Except.bind, pure, Except.pure]
        · refine chainTo_of_walk (fun b hb => ?_) hchain hfull hrec hparsed
          exact mem_archives_of_reached ha ((hmem b).mp hb)
        · exact fun b hb => not_cycle_of_acc (acc_of_walk hdown hlast hend) hb
        · exact fun b _ hb _ _ => hne b ((hmem b).mpr hb)
    · refine iff_of_true (Or.inr ⟨msg, by simp [herr, bind, Except.bind]⟩) ⟨?_, ?_⟩
      · exact fun b hb => not_cycle_of_acc (acc_of_walk hchain hlast hend) hb
      · -- every archive on the walk has a parent, so it does not reach a full one
        intro b full _ hfull hroot
        obtain ⟨pre, post, hsplit⟩ := List.append_of_mem
          (mem_of_reflTransGen hchain hlast hend hfull)
        cases post with
        | nil =>
          rw [hsplit, List.getLast?_concat, Option.some.injEq] at hlast
          exact absurd (hlast ▸ hroot) hnone
        | cons c post =>
          rw [hsplit] at hchain
          obtain ⟨p, hp, -⟩ := (List.isChain_cons_cons.mp hchain.right_of_append).1
          simp [hroot] at hp
    · refine iff_of_false (by simp [hdiv, bind, Except.bind]) fun hends => ?_
      have hsub : a :: above ⊆ archives := fun b hb =>
        mem_archives_of_reached ha (reflTransGen_of_mem hchain hb)
      obtain ⟨b, hb, hcycle⟩ := exists_cycle_of_length_lt hchain hsub (by simp [hlen])
      exact hends.acyclic b (reflTransGen_of_mem hchain hb) hcycle

/-- For all metadata: when planning a restore ends well, and when planning a run ends. -/
theorem parentWalks_end_iff (m : DestMeta) :
    (∀ target, RestoresOrRefuses m.archives target ↔
      ∀ a, m.archives.find? (fun a => a.timestamp == target) = some a →
        WalkEnds m.archives a) ∧
    ∀ src policy, buildPlan src ⟨some m⟩ policy ≠ .error .diverges ↔
      ∀ x, ¬ TransGen (LastParent m.archives) x x := by
  refine ⟨fun _ => restoresOrRefuses_iff, fun src policy => ?_⟩
  rw [ne_eq, buildPlan_diverges_iff, not_exists]
  rfl

/-- An archive that is its own parent. -/
def ownParentMeta : DestMeta := DestMeta.new 0 0 [⟨.plain "20230101", some "20230101", []⟩]

/-- An archive with the empty name, and one on top of it. -/
def emptyNameMeta : DestMeta :=
  DestMeta.new 0 0 [⟨.plain "", none, []⟩, ⟨.plain "20230101", some "", []⟩]

theorem parentWalks_endless :
    buildRestorePlan ownParentMeta.archives (.plain "20230101") = .error .diverges ∧
      buildPlan ⟨Series.new "root" []⟩ ⟨some ownParentMeta⟩ ⟨⟨7⟩, none⟩ = .error .diverges ∧
      buildRestorePlan emptyNameMeta.archives (.plain "20230101") = .error .panic ∧
      ¬ RestoresOrRefuses ownParentMeta.archives (.plain "20230101") := by
  have hdiv : buildRestorePlan ownParentMeta.archives (.plain "20230101") = .error .diverges := by
    decide
  refine ⟨hdiv, by decide, by decide, ?_⟩
  rintro (⟨plan, hok, -⟩ | ⟨msg, herr⟩)
  · simp [hdiv] at hok
  · simp [hdiv] at herr

end Bbkar
