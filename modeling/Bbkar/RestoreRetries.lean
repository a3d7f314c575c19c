import Bbkar.EndToEnd
import Bbkar.VisitedVolumes

/-!
# Restoring again after a failure

`restore` with the executor's `restore_archive` as a parameter, and sequences of restores on
one root. An attempt that fails can leave an incomplete subvolume, and later attempts keep
every entry they find in the root.
-/
namespace Bbkar
open Codec Effects SendReceive

variable {C : Type}

/-! ## The command over any executor -/

/-- `restore_archive`, called for a step of the plan. -/
abbrev ArchiveReceiver (C : Type) := String → RestoreStep → VolumeArchive → RestoreAct C Unit

def restoreStepWith (receive : ArchiveReceiver C) (plan : PreparedRestore)
    (received : Finset String) (step : RestoreStep) : RestoreAct C (Finset String) :=
  let subvolName := subvolumeName plan.volume step.snap.raw
  if subvolName ∈ plan.preExisting then return received
  else if subvolName ∈ received then return received
  else do
    let archive ← liftExcept
      (orPanic (plan.destMeta.archives.find? fun a => a.timestamp == step.snap))
    receive plan.volume step archive
    return insert subvolName received

/-- One call of `restore` with the executor it is given. -/
structure RestoreAttempt (C : Type) where
  env : Env
  restoreArchive : ArchiveReceiver C
  volume : String
  snapshots : List String
  minTimestamp : Option String
  maxTimestamp : Option String

namespace RestoreAttempt

def restore (r : RestoreAttempt C) : RestoreAct C Unit := do
  let destState ← onWorld (inspectDestVolume r.env r.volume)
  let st ← get
  let plan ← liftExcept (prepareRestore r.volume destState st.root.entries r.snapshots
    r.minTimestamp r.maxTimestamp)
  let _ ← plan.steps.foldlM (restoreStepWith r.restoreArchive plan) ∅
  return

/-- What the attempt prepares when it starts here. -/
def plan (r : RestoreAttempt C) (st : Restoring C) : BR PreparedRestore :=
  prepareRestore r.volume (destStateOn st.world.store r.volume) st.root.entries r.snapshots
    r.minTimestamp r.maxTimestamp

end RestoreAttempt

/-- With the executor of the program it is the program's `restore`. -/
theorem restore_eq_attempt (Z : StreamCodec) (T : Transfer String C Bytes) (env : Env)
    (volume : String) (snapshots : List String) (lo hi : Option String) :
    restore Z T env volume snapshots lo hi =
      RestoreAttempt.restore ⟨env, restoreArchive Z T env, volume, snapshots, lo, hi⟩ := rfl

/-! ## What an executor leaves in the root -/

def CompleteIn (complete : String → C → Prop) (root : Root String C) (name : String) : Prop :=
  ∃ c, root.lookup name = some c ∧ complete name c

/-- Nothing in the root is incomplete. -/
def AllComplete (complete : String → C → Prop) (root : Root String C) : Prop :=
  ∀ name c, root.lookup name = some c → complete name c

/-- A receive that returns leaves its subvolume complete. One that fails may leave anything
under that name. -/
def LeavesComplete (complete : String → C → Prop) (receive : ArchiveReceiver C) : Prop :=
  ∀ volume step archive st,
    wp (receive volume step archive)
      (fun _ st' => CompleteIn complete st'.root (subvolumeName volume archive.raw) ∧
        ∀ name, name ≠ subvolumeName volume archive.raw →
          st'.root.lookup name = st.root.lookup name)
      (fun _ st' => ∀ name, name ≠ subvolumeName volume archive.raw →
        st'.root.lookup name = st.root.lookup name) st

/-- Entries of the first root are in the second one as they were. -/
def KeepsEntries (root root' : Root String C) : Prop :=
  ∀ name c, root.lookup name = some c → root'.lookup name = some c

theorem KeepsEntries.refl (root : Root String C) : KeepsEntries root root := fun _ _ h => h

/-- Changes under a name that was not there do not matter. -/
theorem KeepsEntries.of_new {root root' root'' : Root String C} {name : String}
    (h : KeepsEntries root root') (hnew : name ∉ root.entries)
    (hothers : ∀ x, x ≠ name → root''.lookup x = root'.lookup x) : KeepsEntries root root'' := by
  intro x c hc
  have hne : x ≠ name := by
    rintro rfl
    simp [Root.lookup_eq_none hnew] at hc
  rw [hothers x hne]
  exact h x c hc

section Attempt

variable {complete : String → C → Prop} {r : RestoreAttempt C}

/-! ## One attempt -/

/-- An attempt that began on `root` has gone through the steps of `done`. -/
structure Attempted (complete : String → C → Prop) (volume : String) (root : Root String C)
    (done : List RestoreStep) (received : Finset String) (root' : Root String C) : Prop where
  keeps : KeepsEntries root root'
  added : ∀ name c, root.lookup name = none → root'.lookup name = some c → complete name c
  received : ∀ name ∈ received, CompleteIn complete root' name
  done : ∀ s ∈ done, subvolumeName volume s.snap.raw ∈ root.entries ∨
    CompleteIn complete root' (subvolumeName volume s.snap.raw)

/-- A step that has its subvolume changes nothing. -/
theorem Attempted.skip {volume : String} {root root' : Root String C} {done : List RestoreStep}
    {received : Finset String} {step : RestoreStep}
    (h : Attempted complete volume root done received root')
    (hstep : subvolumeName volume step.snap.raw ∈ root.entries ∨
      CompleteIn complete root' (subvolumeName volume step.snap.raw)) :
    Attempted complete volume root (done ++ [step]) received root' := by
  refine ⟨h.keeps, h.added, h.received, fun s hs => ?_⟩
  rw [List.mem_append, List.mem_singleton] at hs
  rcases hs with hs | rfl
  · exact h.done s hs
  · exact hstep

/-- What came in under a name that no earlier step used leaves the rest alone. -/
theorem Attempted.receive {volume : String} {root root' root'' : Root String C}
    {done : List RestoreStep} {received : Finset String} {step : RestoreStep}
    (h : Attempted complete volume root done received root')
    (hnew : subvolumeName volume step.snap.raw ∉ root.entries)
    (hcomplete : CompleteIn complete root'' (subvolumeName volume step.snap.raw))
    (hothers : ∀ name, name ≠ subvolumeName volume step.snap.raw →
      root''.lookup name = root'.lookup name) :
    Attempted complete volume root (done ++ [step])
      (insert (subvolumeName volume step.snap.raw) received) root'' := by
  have hstays : ∀ name, CompleteIn complete root' name → CompleteIn complete root'' name := by
    intro name hname
    by_cases heq : name = subvolumeName volume step.snap.raw
    · exact heq ▸ hcomplete
    · rwa [CompleteIn, hothers name heq]
  constructor
  · exact h.keeps.of_new hnew hothers
  · intro name c habsent hc
    by_cases heq : name = subvolumeName volume step.snap.raw
    · obtain ⟨c', hc', hcomp⟩ := hcomplete
      rw [heq, hc'] at hc
      rw [heq]
      exact Option.some.inj hc ▸ hcomp
    · exact h.added name c habsent (hothers name heq ▸ hc)
  · intro name hname
    rcases Finset.mem_insert.mp hname with rfl | hname
    · exact hcomplete
    · exact hstays name (h.received name hname)
  · intro s hs
    rw [List.mem_append, List.mem_singleton] at hs
    rcases hs with hs | rfl
    · exact (h.done s hs).imp_right (hstays _)
    · exact Or.inr hcomplete

theorem restoreStepWith_spec {receive : ArchiveReceiver C}
    (hreceive : LeavesComplete complete receive) {plan : PreparedRestore} {root : Root String C}
    (hplan : plan.preExisting = root.entries) {done : List RestoreStep}
    {received : Finset String} {step : RestoreStep} {st : Restoring C}
    (h : Attempted complete plan.volume root done received st.root) :
    wp (restoreStepWith receive plan received step)
      (fun received' st' =>
        Attempted complete plan.volume root (done ++ [step]) received' st'.root)
      (fun _ st' => KeepsEntries root st'.root) st := by
  unfold restoreStepWith
  simp only
  split_ifs with hpre hrec
  · exact h.skip (Or.inl (hplan ▸ hpre))
  · exact h.skip (Or.inr (h.received _ hrec))
  · have hnew : subvolumeName plan.volume step.snap.raw ∉ root.entries := hplan ▸ hpre
    simp only [wp_bind, wp_liftExcept, wp_pure]
    refine ⟨fun a ha => ?_, fun _ _ => h.keeps⟩
    have hraw : a.raw = step.snap.raw := by
      cases hfind : plan.destMeta.archives.find? fun a => a.timestamp == step.snap with
      | none => simp [hfind, orPanic] at ha
      | some b =>
        obtain rfl : b = a := by simpa [hfind, orPanic] using ha
        have hsnap : b.timestamp = step.snap := by simpa using List.find?_some hfind
        rw [← hsnap]
        rfl
    refine wp_mono (hreceive plan.volume step a st) ?_ ?_ <;> rw [hraw]
    · rintro _ st' ⟨hcomplete, hothers⟩
      exact h.receive hnew hcomplete hothers
    · exact fun _ st' hothers => h.keeps.of_new hnew hothers

theorem prepareRestore_ok {volume : String} {dest : DestState} {rootEntries : Finset String}
    {snapshots : List String} {lo hi : Option String} {plan : PreparedRestore}
    (h : prepareRestore volume dest rootEntries snapshots lo hi = .ok plan) :
    plan.volume = volume ∧ plan.preExisting = rootEntries := by
  unfold prepareRestore at h
  split at h
  · simp at h
  split at h
  · simp at h
  split at h
  · simp at h
  · cases h
    exact ⟨rfl, rfl⟩

/-- An attempt keeps what it finds. When it returns, what it has added is complete, and the
subvolumes of its steps are among what it found or added. -/
theorem RestoreAttempt.restore_spec (hr : LeavesComplete complete r.restoreArchive)
    (st : Restoring C) :
    wp r.restore
      (fun _ st' => ∃ plan received, r.plan st = .ok plan ∧ plan.volume = r.volume ∧
        Attempted complete r.volume st.root plan.steps received st'.root)
      (fun _ st' => KeepsEntries st.root st'.root) st := by
  have hkeeps := KeepsEntries.refl st.root
  unfold RestoreAttempt.restore onWorld
  simp only [wp_bind, wp_zoom, wp_get, wp_liftExcept, wp_pure]
  refine wp_mono inspectDestVolume_returned ?_ fun _ _ _ => hkeeps
  rintro dest w ⟨rfl, -, rfl⟩
  refine ⟨fun plan hplan => ?_, fun _ _ => hkeeps⟩
  obtain ⟨hvolume, hpre⟩ := prepareRestore_ok hplan
  -- the steps done so far, in front of those that are left
  let I : List RestoreStep → Finset String → Restoring C → Prop := fun rest received st' =>
    ∃ done, plan.steps = done ++ rest ∧
      Attempted complete plan.volume st.root done received st'.root
  have hstart : I plan.steps ∅ ⟨st.world.tick, st.root, st.receives⟩ :=
    ⟨[], rfl, hkeeps, fun name c hnone hsome => by simp [hnone] at hsome, by simp, by simp⟩
  refine wp_mono_ok (wp_foldlM (I := I) plan.steps ∅ ?_ hstart) ?_
  · rintro step rest received st' ⟨done, hsplit, hdone⟩
    refine wp_mono_ok (restoreStepWith_spec hr hpre hdone) ?_
    exact fun received' st'' h => ⟨done ++ [step], by simp [hsplit], h⟩
  · rintro received st' ⟨done, hsplit, hdone⟩
    obtain rfl : plan.steps = done := by simpa using hsplit
    exact ⟨plan, received, hplan, hvolume, hvolume ▸ hdone⟩

end Attempt

/-! ## Sequences of attempts -/

/-- The attempts run on one root and one destination, and go on after failures. -/
def attempts (rs : List (RestoreAttempt C)) (start : Restoring C) : Restoring C :=
  session (rs.map RestoreAttempt.restore) start

theorem attempts_concat (rs : List (RestoreAttempt C)) (r : RestoreAttempt C)
    (start : Restoring C) :
    attempts (rs ++ [r]) start = (outcome r.restore (attempts rs start)).2 := by
  simp [attempts, session]

/-- An attempt failed and left this under a name that was free before. -/
def LeftByFailure (rs : List (RestoreAttempt C)) (start : Restoring C) (name : String) (c : C) :
    Prop :=
  ∃ before r after, rs = before ++ r :: after ∧
    (∃ e, (outcome r.restore (attempts before start)).1 = .error e) ∧
    (attempts before start).root.lookup name = none ∧
    (attempts (before ++ [r]) start).root.lookup name = some c

section Attempts

variable {complete : String → C → Prop} {rs : List (RestoreAttempt C)} {start : Restoring C}

theorem LeftByFailure.concat {name : String} {c : C} (h : LeftByFailure rs start name c)
    (r : RestoreAttempt C) : LeftByFailure (rs ++ [r]) start name c := by
  obtain ⟨before, r', after, rfl, hleft⟩ := h
  exact ⟨before, r', after ++ [r], by simp, hleft⟩

/-- Whatever is incomplete after some attempts was left by one that failed. -/
theorem left_of_incomplete (hrs : ∀ r ∈ rs, LeavesComplete complete r.restoreArchive)
    (hstart : AllComplete complete start.root) {name : String} {c : C}
    (hc : (attempts rs start).root.lookup name = some c) (hincomplete : ¬ complete name c) :
    LeftByFailure rs start name c := by
  induction rs using List.reverseRecOn generalizing c with
  | nil => exact absurd (hstart name c hc) hincomplete
  | append_singleton rs r ih =>
    have hspec := RestoreAttempt.restore_spec (hrs r (by simp)) (attempts rs start)
    -- what the last attempt found was left before it
    have hfound : ∀ c' root', (attempts rs start).root.lookup name = some c' →
        KeepsEntries (attempts rs start).root root' → root'.lookup name = some c →
        LeftByFailure (rs ++ [r]) start name c := by
      intro c' root' hbefore hkeeps hafter
      obtain rfl : c' = c := by simpa [hkeeps name c' hbefore] using hafter
      exact (ih (fun r' hr' => hrs r' (by simp [hr'])) hbefore hincomplete).concat r
    rw [attempts_concat] at hc
    rcases hout : outcome r.restore (attempts rs start) with ⟨e | u, st'⟩ <;>
      rw [hout] at hc
    · rw [wp_of_error hout] at hspec
      cases hbefore : (attempts rs start).root.lookup name with
      | some c' => exact hfound c' st'.root hbefore hspec hc
      | none =>
        refine ⟨rs, r, [], rfl, ⟨e, by rw [hout]⟩, hbefore, ?_⟩
        rw [attempts_concat, hout, hc]
    · rw [wp_of_ok hout] at hspec
      obtain ⟨plan, received, -, -, hdone⟩ := hspec
      cases hbefore : (attempts rs start).root.lookup name with
      | some c' => exact hfound c' st'.root hbefore hdone.keeps hc
      | none => exact absurd (hdone.added name c hbefore hc) hincomplete

/-- The subvolume is complete, or the attempt found it incomplete, as an earlier failure had
left it, and left it alone. -/
def CompleteOrLeft (complete : String → C → Prop) (rs : List (RestoreAttempt C))
    (start st' : Restoring C) (name : String) : Prop :=
  CompleteIn complete st'.root name ∨
    ∃ c, ¬ complete name c ∧ (attempts rs start).root.lookup name = some c ∧
      LeftByFailure rs start name c ∧ st'.root.lookup name = some c

/-- An attempt that returns, after any others, has brought in every subvolume of its steps,
except for those it found in the root. -/
theorem restore_complete_or_left (rs : List (RestoreAttempt C))
    (hrs : ∀ r ∈ rs, LeavesComplete complete r.restoreArchive)
    (hstart : AllComplete complete start.root) (r : RestoreAttempt C)
    (hr : LeavesComplete complete r.restoreArchive) (st' : Restoring C)
    (hreturns : outcome r.restore (attempts rs start) = (.ok (), st')) :
    ∃ plan, r.plan (attempts rs start) = .ok plan ∧
      ∀ step ∈ plan.steps,
        CompleteOrLeft complete rs start st' (subvolumeName r.volume step.snap.raw) := by
  have hspec := RestoreAttempt.restore_spec hr (attempts rs start)
  rw [wp_of_ok hreturns] at hspec
  obtain ⟨plan, received, hplan, -, hdone⟩ := hspec
  refine ⟨plan, hplan, fun step hstep => ?_⟩
  rcases hdone.done step hstep with hfound | hcomplete
  · obtain ⟨c, hc⟩ := Root.exists_lookup hfound
    have hkept := hdone.keeps _ c hc
    by_cases hcomp : complete (subvolumeName r.volume step.snap.raw) c
    · exact Or.inl ⟨c, hkept, hcomp⟩
    · exact Or.inr ⟨c, hcomp, hc, left_of_incomplete hrs hstart hc hcomp, hkept⟩
  · exact Or.inl hcomplete

end Attempts

/-! ## A failure and a second attempt -/

/-- Leaves the subvolume complete or, when it fails, incomplete. -/
def receiveOrFail (fails : Bool) : ArchiveReceiver Bool := fun volume _ archive => do
  modify fun st =>
    { st with root := st.root.put (subvolumeName volume archive.raw) (!fails) }
  if fails then throw (.err (.execution "btrfs receive failed (exit 1): ")) else return

theorem receiveOrFail_leavesComplete (fails : Bool) :
    LeavesComplete (fun _ c => c = true) (receiveOrFail fails) := by
  intro volume step archive st
  unfold receiveOrFail
  cases fails
  · simp only [wp_bind, wp_modify, Bool.false_eq_true, if_false, wp_pure]
    exact ⟨⟨true, by simp, rfl⟩, fun name hname => by simp [hname]⟩
  · simp only [wp_bind, wp_modify, if_true, wp_throw]
    exact fun name hname => by simp [hname]

def attemptRoot (fails : Bool) : RestoreAttempt Bool :=
  ⟨Env.calm, receiveOrFail fails, "root", [], none, none⟩

/-- An empty root, and one archive on the destination. -/
def oneArchive : Restoring Bool where
  world := World.start fun key =>
    if key = metaKey "root" then
      some (.metadata (DestMeta.new 0 0 [(RunStep.sendFull (.plain "20230101")).archive []]))
    else none
  root := Root.empty
  receives := []

theorem attemptRoot_returns :
    ∃ st', outcome (attemptRoot false).restore (attempts [attemptRoot true] oneArchive) =
      (.ok (), st') := by
  have h : (outcome (attemptRoot false).restore
      (attempts [attemptRoot true] oneArchive)).1.isOk = true := by decide +kernel
  obtain ⟨_, st', hreturns⟩ := exists_of_isOk h
  exact ⟨st', hreturns⟩

theorem restore_complete_or_left_attemptRoot :
    ∃ st' plan, (attemptRoot false).plan (attempts [attemptRoot true] oneArchive) = .ok plan ∧
      ∀ step ∈ plan.steps, CompleteOrLeft (fun _ c => c = true) [attemptRoot true] oneArchive st'
        (subvolumeName "root" step.snap.raw) := by
  obtain ⟨st', hreturns⟩ := attemptRoot_returns
  refine ⟨st', restore_complete_or_left [attemptRoot true] ?_ ?_ (attemptRoot false)
    (receiveOrFail_leavesComplete false) st' hreturns⟩
  · intro r hr
    obtain rfl := List.mem_singleton.mp hr
    exact receiveOrFail_leavesComplete true
  · simp [AllComplete, oneArchive, Root.empty]

/-- The first attempt fails and leaves an incomplete subvolume. The second one returns and
has not received it again. -/
theorem restore_trusts_leftover :
    (∀ fails, LeavesComplete (fun _ c => c = true) (attemptRoot fails).restoreArchive) ∧
      AllComplete (fun _ c => c = true) oneArchive.root ∧
      WellFormed (destStateOn oneArchive.world.store "root").archives ∧
      ∃ st' plan, outcome (attemptRoot false).restore
          (attempts [attemptRoot true] oneArchive) = (.ok (), st') ∧
        (attemptRoot false).plan (attempts [attemptRoot true] oneArchive) = .ok plan ∧
        ∃ step ∈ plan.steps, ¬ CompleteIn (fun _ c => c = true) st'.root
          (subvolumeName (attemptRoot false).volume step.snap.raw) := by
  refine ⟨receiveOrFail_leavesComplete, by simp [AllComplete, oneArchive, Root.empty],
    .of_full (by decide) (by decide), ?_⟩
  obtain ⟨st', hreturns⟩ := attemptRoot_returns
  have hleft : (outcome (attemptRoot false).restore
      (attempts [attemptRoot true] oneArchive)).2.root.lookup "root.20230101" = some false := by
    decide +kernel
  rw [hreturns] at hleft
  have hsteps : ((attemptRoot false).plan (attempts [attemptRoot true] oneArchive)).toOption.map
      (·.steps) = some [.receiveFull (.plain "20230101")] := by decide +kernel
  cases hplan : (attemptRoot false).plan (attempts [attemptRoot true] oneArchive) with
  | error e => simp [hplan, Except.toOption] at hsteps
  | ok plan =>
    rw [hplan] at hsteps
    have hplanned : plan.steps = [.receiveFull (.plain "20230101")] := Option.some.inj hsteps
    refine ⟨st', plan, hreturns, rfl, .receiveFull (.plain "20230101"), by simp [hplanned], ?_⟩
    rintro ⟨c, hc, rfl⟩
    exact absurd (hleft.symm.trans hc) (by decide)

end Bbkar
