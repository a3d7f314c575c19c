import Bbkar.ParentWalks
import Bbkar.RestoreRetries

/-!
# Dry restores

Translation of `dryrestore`, which prepares like `restore` and prints instead of receiving.
A step of a plan carries a timestamp only. The archive that `restore` finds for it is the
one the step was built from, and no step comes twice.
-/
namespace Bbkar
open Codec Effects KeySort

variable {C : Type}

/-! ## The command -/

inductive DryrestoreLine where
  | wouldSkip (subvolName : String)
  | wouldReceive (kind snapshot : String)
  deriving DecidableEq, Repr

def RestoreStep.kind : RestoreStep → String
  | receiveFull _ => "full"
  | receiveIncremental _ _ => "incremental"

def dryrestoreLine (plan : PreparedRestore) (step : RestoreStep) : DryrestoreLine :=
  let subvolName := subvolumeName plan.volume step.snap.raw
  if subvolName ∈ plan.preExisting then .wouldSkip subvolName
  else .wouldReceive step.kind step.snap.raw

namespace RestoreAttempt

/-- The part that both commands begin with. -/
def prepare (r : RestoreAttempt C) : RestoreAct C PreparedRestore := do
  let destState ← onWorld (inspectDestVolume r.env r.volume)
  let st ← get
  liftExcept (prepareRestore r.volume destState st.root.entries r.snapshots r.minTimestamp
    r.maxTimestamp)

def dryrestore (r : RestoreAttempt C) : RestoreAct C (List DryrestoreLine) := do
  let plan ← r.prepare
  return plan.steps.map (dryrestoreLine plan)

theorem restore_eq_prepare (r : RestoreAttempt C) :
    r.restore = r.prepare >>= fun plan =>
      plan.steps.foldlM (restoreStepWith r.restoreArchive plan) ∅ >>= fun _ => pure ⟨⟩ := by
  simp only [restore, prepare, bind_assoc]

theorem prepare_spec (r : RestoreAttempt C) (st : Restoring C) :
    wp r.prepare (fun plan _ => r.plan st = .ok plan) (fun _ _ => True) st := by
  unfold prepare onWorld
  simp only [wp_bind, wp_zoom, wp_get, wp_liftExcept]
  refine wp_mono inspectDestVolume_returned ?_ fun _ _ _ => trivial
  rintro dest w ⟨rfl, -, rfl⟩
  exact ⟨fun _ hplan => hplan, fun _ _ => trivial⟩

end RestoreAttempt

/-! ## The archive of a step -/

/-- Some walk over parents went through the archive, and the step was made of it. -/
def BuiltFrom (archives : List VolumeArchive) (step : RestoreStep) (a : VolumeArchive) : Prop :=
  ∃ target chain, archives.find? (fun b => b.timestamp == target.timestamp) = some target ∧
    parentWalk archives archives.length [target] target = .ok chain ∧ a ∈ chain ∧
    restoreStepOf a = .ok step

/-- The first archive of a name is also the first with its timestamp. -/
theorem find?_timestamp_of_raw {archives : List VolumeArchive} {name : String}
    {a : VolumeArchive} (h : archives.find? (fun b => b.raw == name) = some a) :
    archives.find? (fun b => b.timestamp == a.timestamp) = some a := by
  obtain ⟨hraw, before, after, rfl, hbefore⟩ := List.find?_eq_some_iff_append.mp h
  refine List.find?_eq_some_iff_append.mpr ⟨by simp, before, after, rfl, ?_⟩
  intro b hb
  have hne := hbefore b hb
  simp only [Bool.not_eq_true', beq_eq_false_iff_ne, beq_iff_eq] at hraw hne ⊢
  rintro hsame
  exact hne ((congrArg Timestamp.raw hsame).trans hraw)

/-- The walk adds archives that it found by name. -/
theorem parentWalk_mem {archives : List VolumeArchive} {fuel : ℕ}
    {chain result : List VolumeArchive} {current : VolumeArchive}
    (h : parentWalk archives fuel chain current = .ok result) :
    ∀ a ∈ result, a ∈ chain ∨
      archives.find? (fun b => b.timestamp == a.timestamp) = some a := by
  induction fuel generalizing chain current with
  | zero =>
    unfold parentWalk at h
    split at h
    · cases h
      exact fun a ha => Or.inl ha
    · cases h
  | succ fuel ih =>
    unfold parentWalk at h
    split at h
    · cases h
      exact fun a ha => Or.inl ha
    · simp only at h
      split at h
      · cases h
      · next parent hfind =>
        intro a ha
        rcases ih h a ha with hmem | hfound
        · rcases List.mem_cons.mp hmem with rfl | hmem
          · exact Or.inr (find?_timestamp_of_raw hfind)
          · exact Or.inl hmem
        · exact Or.inr hfound

/-- The lookup of `restore` comes back to the archive that the step was built from. -/
theorem BuiltFrom.found {archives : List VolumeArchive} {step : RestoreStep}
    {a : VolumeArchive} (h : BuiltFrom archives step a) :
    archives.find? (fun b => b.timestamp == step.snap) = some a ∧
      a.parentTimestamp = step.parent.map Timestamp.raw := by
  obtain ⟨target, chain, htarget, hwalk, ha, hstep⟩ := h
  have hfound : archives.find? (fun b => b.timestamp == a.timestamp) = some a := by
    rcases parentWalk_mem hwalk a ha with hmem | hfound
    · rwa [List.mem_singleton.mp hmem]
    · exact hfound
  rcases restoreStepOf_cases a with ⟨-, hpanic⟩ | ⟨-, step', hok, hrec, -⟩
  · simp [hpanic] at hstep
  · obtain rfl : step' = step := Except.ok.inj (hok.symm.trans hstep)
    have hsnap : step'.snap = a.timestamp := congrArg Prod.fst hrec
    have hparent : step'.parent.map Timestamp.raw = a.parentTimestamp := congrArg Prod.snd hrec
    exact ⟨hsnap ▸ hfound, hparent.symm⟩

theorem mapM_ok_mem {α β ε : Type} {f : α → Except ε β} {xs : List α} {ys : List β}
    (h : xs.mapM f = .ok ys) {y : β} (hy : y ∈ ys) : ∃ x ∈ xs, f x = .ok y := by
  induction xs generalizing ys with
  | nil =>
    cases h
    simp at hy
  | cons x xs ih =>
    rw [List.mapM_cons] at h
    cases hx : f x with
    | error e => simp [hx, bind, Except.bind] at h
    | ok z =>
      cases hxs : xs.mapM f with
      | error e => simp [hx, hxs, bind, Except.bind] at h
      | ok zs =>
        obtain rfl : z :: zs = ys := by
          simpa [hx, hxs, bind, Except.bind, pure, Except.pure] using h
        rcases List.mem_cons.mp hy with rfl | hy
        · exact ⟨x, by simp, hx⟩
        · obtain ⟨x', hx', hy'⟩ := ih hxs hy
          exact ⟨x', List.mem_cons_of_mem _ hx', hy'⟩

theorem buildRestorePlan_builtFrom {archives : List VolumeArchive} {target : Timestamp}
    {plan : RestorePlan} (h : buildRestorePlan archives target = .ok plan) :
    ∀ step ∈ plan.steps, ∃ a, BuiltFrom archives step a := by
  unfold buildRestorePlan at h
  split at h
  · cases h
  · next targetArchive hfind =>
    have htarget : targetArchive.timestamp = target := by simpa using List.find?_some hfind
    cases hwalk : parentWalk archives archives.length [targetArchive] targetArchive with
    | error e => simp [hwalk, bind, Except.bind] at h
    | ok chain =>
      cases hsteps : chain.mapM restoreStepOf with
      | error e => simp [hwalk, hsteps, bind, Except.bind] at h
      | ok steps =>
        obtain rfl : (⟨steps⟩ : RestorePlan) = plan := by
          simpa [hwalk, hsteps, bind, Except.bind, pure, Except.pure] using h
        intro step hstep
        obtain ⟨a, ha, hbuilt⟩ := mapM_ok_mem hsteps hstep
        exact ⟨a, targetArchive, chain, by rw [htarget, hfind], hwalk, ha, hbuilt⟩

/-- The merged steps so far have distinct names and an archive each. -/
structure MergedFrom (archives : List VolumeArchive) (st : Finset String × List RestoreStep) :
    Prop where
  unseen : Unseen (·.snap.raw) st
  built : ∀ step ∈ st.2, ∃ a, BuiltFrom archives step a

theorem MergedFrom.mergeTarget {archives : List VolumeArchive}
    {st st' : Finset String × List RestoreStep} (h : MergedFrom archives st)
    {target : Timestamp} (hok : mergeTarget archives st target = .ok st') :
    MergedFrom archives st' := by
  unfold Bbkar.mergeTarget at hok
  split at hok
  · cases hok
  · next plan hplan =>
    cases hok
    obtain ⟨hunseen, -, hmem⟩ := foldl_pushUnseen h.unseen plan.steps
    refine ⟨hunseen, fun step hstep => ?_⟩
    rcases hmem step hstep with hold | hnew
    · exact h.built step hold
    · exact buildRestorePlan_builtFrom hplan step hnew

theorem foldlM_mergeTarget_mergedFrom {archives : List VolumeArchive} (targets : List Timestamp)
    {st st' : Finset String × List RestoreStep} (h : MergedFrom archives st)
    (hok : targets.foldlM (mergeTarget archives) st = .ok st') : MergedFrom archives st' := by
  induction targets generalizing st with
  | nil =>
    cases hok
    exact h
  | cons target targets ih =>
    rw [List.foldlM_cons] at hok
    cases hstep : mergeTarget archives st target with
    | error e => simp [hstep, bind, Except.bind] at hok
    | ok st₁ =>
      rw [hstep] at hok
      exact ih (h.mergeTarget hstep) hok

/-- Prepared steps have distinct names, and each was built from an archive. -/
theorem prepareRestore_builtFrom {volume : String} {dest : DestState}
    {rootEntries : Finset String} {snapshots : List String} {lo hi : Option String}
    {plan : PreparedRestore}
    (h : prepareRestore volume dest rootEntries snapshots lo hi = .ok plan) :
    (plan.steps.map (·.snap.raw)).Nodup ∧
      ∀ step ∈ plan.steps, ∃ a, BuiltFrom plan.destMeta.archives step a := by
  unfold prepareRestore at h
  split at h
  · cases h
  split at h
  · cases h
  split at h
  · cases h
  · next hmerge =>
    cases h
    have hmerged := foldlM_mergeTarget_mergedFrom _ ⟨Unseen.empty _, by simp⟩ hmerge
    refine ⟨((sortByKey_perm _ _).map _).nodup_iff.mpr hmerged.unseen.nodup, fun step hstep => ?_⟩
    exact hmerged.built step ((mem_sortByKey _ _ step).mp hstep)

/-! ## The loop -/

/-- The calls of `restore_archive` that the steps lead to. -/
def callsOf (plan : PreparedRestore) (steps : List RestoreStep) :
    List (RestoreStep × VolumeArchive) :=
  steps.filterMap fun step =>
    if subvolumeName plan.volume step.snap.raw ∈ plan.preExisting then none
    else (plan.destMeta.archives.find? fun a => a.timestamp == step.snap).map fun a => (step, a)

def callNames (plan : PreparedRestore) (steps : List RestoreStep) : Finset String :=
  ((callsOf plan steps).map fun c => subvolumeName plan.volume c.1.snap.raw).toFinset

section Loop

variable {receive : ArchiveReceiver C} {plan : PreparedRestore} {steps : List RestoreStep}

theorem mem_callsOf {c : RestoreStep × VolumeArchive} (h : c ∈ callsOf plan steps) :
    c.1 ∈ steps ∧ subvolumeName plan.volume c.1.snap.raw ∉ plan.preExisting ∧
      plan.destMeta.archives.find? (fun a => a.timestamp == c.1.snap) = some c.2 := by
  obtain ⟨step, hstep, hc⟩ := List.mem_filterMap.mp h
  split_ifs at hc with hpre
  obtain ⟨a, ha, rfl⟩ := Option.map_eq_some_iff.mp hc
  exact ⟨hstep, hpre, ha⟩

theorem callsOf_cons_existing {step : RestoreStep}
    (hpre : subvolumeName plan.volume step.snap.raw ∈ plan.preExisting) :
    callsOf plan (step :: steps) = callsOf plan steps := by
  simp only [callsOf, List.filterMap_cons, if_pos hpre]

theorem callsOf_cons_new {step : RestoreStep} {a : VolumeArchive}
    (hpre : subvolumeName plan.volume step.snap.raw ∉ plan.preExisting)
    (ha : plan.destMeta.archives.find? (fun b => b.timestamp == step.snap) = some a) :
    callsOf plan (step :: steps) = (step, a) :: callsOf plan steps := by
  simp only [callsOf, List.filterMap_cons, if_neg hpre, ha, Option.map_some]

/-- With distinct names the loop calls the executor for its steps in order and does nothing
else. -/
theorem foldlM_restoreStepWith (hnodup : (steps.map (·.snap.raw)).Nodup)
    (hfound : ∀ step ∈ steps, ∃ a,
      plan.destMeta.archives.find? (fun b => b.timestamp == step.snap) = some a)
    {received : Finset String}
    (hnew : ∀ step ∈ steps, subvolumeName plan.volume step.snap.raw ∉ received) :
    steps.foldlM (restoreStepWith receive plan) received =
      ((callsOf plan steps).forM (fun c => receive plan.volume c.1 c.2) >>= fun _ =>
        pure (received ∪ callNames plan steps)) := by
  induction steps generalizing received with
  | nil => simp [callsOf, callNames]
  | cons step steps ih =>
    rw [List.map_cons, List.nodup_cons] at hnodup
    obtain ⟨hfresh, hnodup⟩ := hnodup
    obtain ⟨a, ha⟩ := hfound step (by simp)
    have hfound' := fun s hs => hfound s (List.mem_cons_of_mem _ hs)
    have hnew' := fun s hs => hnew s (List.mem_cons_of_mem _ hs)
    rw [List.foldlM_cons, restoreStepWith]
    by_cases hpre : subvolumeName plan.volume step.snap.raw ∈ plan.preExisting
    · rw [if_pos hpre, pure_bind, ih hnodup hfound' hnew', callNames, callNames,
        callsOf_cons_existing hpre]
    · have hlater : ∀ s ∈ steps, subvolumeName plan.volume s.snap.raw ∉
          insert (subvolumeName plan.volume step.snap.raw) received := by
        intro s hs hmem
        rcases Finset.mem_insert.mp hmem with hsame | hmem
        · exact hfresh (List.mem_map.mpr ⟨s, hs, subvolumeName_injective plan.volume hsame⟩)
        · exact hnew' s hs hmem
      have hnames : insert (subvolumeName plan.volume step.snap.raw) received ∪
          callNames plan steps = received ∪ callNames plan (step :: steps) := by
        rw [callNames, callNames, callsOf_cons_new hpre ha, List.map_cons, List.toFinset_cons,
          Finset.insert_union, Finset.union_insert]
      have hlift : (liftExcept (orPanic (some a)) : RestoreAct C VolumeArchive) = pure a := rfl
      have hcalls : (callsOf plan (step :: steps)).forM
          (fun c => receive plan.volume c.1 c.2) = (receive plan.volume step a >>= fun _ =>
            (callsOf plan steps).forM fun c => receive plan.volume c.1 c.2) := by
        rw [callsOf_cons_new hpre ha]
        rfl
      rw [if_neg hpre, if_neg (hnew step (by simp)), ha, hlift, hcalls]
      simp only [pure_bind, bind_assoc, ih hnodup hfound' hlater, hnames]

theorem restoreStepWith_received {s s' : Restoring C} {received : Finset String}
    (hnodup : (steps.map (·.snap.raw)).Nodup)
    (hfound : ∀ step ∈ steps, ∃ a,
      plan.destMeta.archives.find? (fun b => b.timestamp == step.snap) = some a)
    (h : outcome (steps.foldlM (restoreStepWith receive plan) ∅) s = (.ok received, s')) :
    received = callNames plan steps := by
  rw [foldlM_restoreStepWith hnodup hfound (by simp), outcome_bind, Finset.empty_union] at h
  rcases hcalls : outcome ((callsOf plan steps).forM fun c => receive plan.volume c.1 c.2) s
    with ⟨e | u, t⟩ <;> rw [hcalls] at h <;> cases h
  rfl

end Loop

/-! ## The forecast -/

/-- Kind and snapshot of a line that announces a receive. -/
def DryrestoreLine.announced : DryrestoreLine → Option (String × String)
  | wouldSkip _ => none
  | wouldReceive kind snapshot => some (kind, snapshot)

/-- The kind of the stream that an archive holds. -/
def VolumeArchive.kind (a : VolumeArchive) : String :=
  if a.isIncremental then "incremental" else "full"

theorem kind_eq {step : RestoreStep} {a : VolumeArchive}
    (h : a.parentTimestamp = step.parent.map Timestamp.raw) : step.kind = a.kind := by
  cases step <;> simp [VolumeArchive.kind, VolumeArchive.isIncremental, h, RestoreStep.kind,
    RestoreStep.parent]

/-- The lines of some steps announce the calls that the steps lead to. -/
theorem announced_eq_callsOf {plan : PreparedRestore} (steps : List RestoreStep)
    (hbuilt : ∀ step ∈ steps, ∃ a, BuiltFrom plan.destMeta.archives step a) :
    (steps.map (dryrestoreLine plan)).filterMap DryrestoreLine.announced =
      (callsOf plan steps).map fun c => (c.2.kind, c.2.raw) := by
  induction steps with
  | nil => rfl
  | cons step steps ih =>
    have htail := ih fun s hs => hbuilt s (List.mem_cons_of_mem _ hs)
    obtain ⟨a, ha⟩ := hbuilt step (by simp)
    obtain ⟨hfound, hparent⟩ := ha.found
    have hraw : step.snap.raw = a.raw := by
      have hsnap : a.timestamp = step.snap := by simpa using List.find?_some hfound
      rw [← hsnap]
      rfl
    rw [List.map_cons, List.filterMap_cons, dryrestoreLine]
    by_cases hpre : subvolumeName plan.volume step.snap.raw ∈ plan.preExisting
    · simp only [if_pos hpre, DryrestoreLine.announced, htail, callsOf_cons_existing hpre]
    · rw [if_neg hpre, callsOf_cons_new hpre hfound]
      simp only [DryrestoreLine.announced, htail, List.map_cons, kind_eq hparent, hraw]

/-- What holds of a dry restore that returned these lines. -/
structure Predicts (r : RestoreAttempt C) (plan : PreparedRestore) (lines : List DryrestoreLine) :
    Prop where
  announced : lines.filterMap DryrestoreLine.announced =
    (callsOf plan plan.steps).map fun c => (c.2.kind, c.2.raw)
  found : ∀ step ∈ plan.steps, ∃ a,
    plan.destMeta.archives.find? (fun b => b.timestamp == step.snap) = some a ∧
      BuiltFrom plan.destMeta.archives step a ∧
      a.parentTimestamp = step.parent.map Timestamp.raw
  notReceived : ∀ before step after, plan.steps = before ++ step :: after →
    ∀ s received s', outcome (before.foldlM (restoreStepWith r.restoreArchive plan) ∅) s =
      (.ok received, s') → subvolumeName plan.volume step.snap.raw ∉ received

theorem predicts_of_plan {r : RestoreAttempt C} {st : Restoring C} {plan : PreparedRestore}
    (h : r.plan st = .ok plan) : Predicts r plan (plan.steps.map (dryrestoreLine plan)) := by
  obtain ⟨hnodup, hbuilt⟩ := prepareRestore_builtFrom h
  have hfound : ∀ step ∈ plan.steps, ∃ a,
      plan.destMeta.archives.find? (fun b => b.timestamp == step.snap) = some a := by
    intro step hstep
    obtain ⟨a, ha⟩ := hbuilt step hstep
    exact ⟨a, ha.found.1⟩
  refine ⟨announced_eq_callsOf plan.steps hbuilt, fun step hstep => ?_, ?_⟩
  · obtain ⟨a, ha⟩ := hbuilt step hstep
    exact ⟨a, ha.found.1, ha, ha.found.2⟩
  · intro before step after hsplit s received s' hrun hmem
    rw [hsplit, List.map_append, List.nodup_append] at hnodup
    obtain ⟨hbefore, -, hdisjoint⟩ := hnodup
    have hfound' := fun b hb => hfound b (by rw [hsplit]; exact List.mem_append_left _ hb)
    rw [restoreStepWith_received hbefore hfound' hrun, callNames, List.mem_toFinset,
      List.mem_map] at hmem
    obtain ⟨c, hc, hsame⟩ := hmem
    exact hdisjoint _ (List.mem_map_of_mem (mem_callsOf hc).1) step.snap.raw (by simp)
      (subvolumeName_injective plan.volume hsame)

/-- A dry restore announces what a restore with any executor goes on to receive: the restore
continues from the same state with the calls for the announced archives, in their order. When
the dry restore fails the restore fails in the same way. -/
theorem dryrestore_predicts (r : RestoreAttempt C) (st : Restoring C) :
    wp r.dryrestore
      (fun lines st' => ∃ plan, r.plan st = .ok plan ∧ Predicts r plan lines ∧
        outcome r.restore st = outcome
          ((callsOf plan plan.steps).forM fun c => r.restoreArchive r.volume c.1 c.2) st')
      (fun e st' => outcome r.restore st = (.error e, st')) st := by
  have hprepare := r.prepare_spec st
  unfold wp RestoreAttempt.dryrestore
  rw [RestoreAttempt.restore_eq_prepare, outcome_bind, outcome_bind]
  rcases hout : outcome r.prepare st with ⟨e | plan, st'⟩
  · rfl
  · rw [wp_of_ok hout] at hprepare
    obtain ⟨hnodup, hbuilt⟩ := prepareRestore_builtFrom hprepare
    refine ⟨plan, hprepare, predicts_of_plan hprepare, ?_⟩
    have hloop : plan.steps.foldlM (restoreStepWith r.restoreArchive plan) ∅ = _ :=
      foldlM_restoreStepWith hnodup
        (fun step hstep => (hbuilt step hstep).imp fun a ha => ha.found.1)
        fun _ _ => Finset.notMem_empty _
    simp only [hloop, bind_assoc, pure_bind, (prepareRestore_ok hprepare).1, bind_pure_unit]

end Bbkar
