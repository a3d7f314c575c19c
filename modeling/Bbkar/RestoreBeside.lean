import Bbkar.RestoreRun
import Bbkar.Lockstep

/-!
# Restoring beside other processes

The destination may change between two calls of a restore. `restoreBeside` is `restore` with
an observation before every access to the destination; an observation that does nothing gives
`restore` back. Two restores that observe the same objects wherever they read are in lockstep.
-/
namespace Bbkar
open KeySort ParentForest Codec Effects SendReceive Function

/-! ## Observing the destination -/

variable {C : Type}

def inspectDestVolumeBeside (observe : Act Unit) (env : Env) (volume : String) :
    Act DestState := do
  observe
  inspectDestVolume env volume

namespace ChunkStreamReader

def loadNextChunkBeside (observe : Act Unit) (env : Env) (r : ChunkStreamReader) :
    Act (Bool × ChunkStreamReader) := do
  observe
  r.loadNextChunk env

def readLoopBeside (observe : Act Unit) (env : Env) (len : ℕ) :
    ℕ → ChunkStreamReader → Act (Bytes × ChunkStreamReader)
  | fuel, r => do
    let (piece, r) := r.readCursor len
    if piece ≠ [] then return (piece, r)
    else
      let (more, r) ← r.loadNextChunkBeside observe env
      if more then
        match fuel with
        | 0 => throw .diverges
        | fuel + 1 => readLoopBeside observe env len fuel r
      else return ([], r)

def readBeside (observe : Act Unit) (env : Env) (len : ℕ) (r : ChunkStreamReader) :
    Act (Bytes × ChunkStreamReader) :=
  r.readLoopBeside observe env len (r.chunkFilenames.length - r.currentIdx)

def readToEndBeside (observe : Act Unit) (env : Env) : ℕ → ChunkStreamReader → Act Bytes
  | fuel, r => do
    let len ← ask fun n => max 1 (env.accept n)
    let (piece, r) ← r.readBeside observe env len
    if piece = [] then return []
    else
      match fuel with
      | 0 => throw .diverges
      | fuel + 1 => do
        let rest ← readToEndBeside observe env fuel r
        return piece ++ rest

end ChunkStreamReader

def readArchiveBeside (observe : Act Unit) (Z : StreamCodec) (env : Env) (volume : String)
    (archive : VolumeArchive) : Act Bytes := do
  observe
  let w ← get
  let sizes := archive.chunks.map fun c =>
    (partBytes w.store (pathInSnapshot volume archive.raw c.filename)).length
  let compressed ← (ChunkStreamReader.new volume archive).readToEndBeside observe env sizes.sum
  match Z.decompress compressed with
  | some data => return data
  | none => throw (.err (.io "invalid zstd data"))

section Restore

variable (observe : Act Unit) (Z : StreamCodec) (T : Transfer String C Bytes) (env : Env)

def restoreArchiveBeside (volume : String) (step : RestoreStep) (archive : VolumeArchive) :
    RestoreAct C Unit := do
  modify fun st => { st with receives := (step, st.root) :: st.receives }
  let _ ← onWorld (call env)
  let data ← afterError (onWorld (readArchiveBeside observe Z env volume archive))
    fun st => { st with root := T.interrupt st.root }
  let st ← get
  let (failure, root) := T.receive st.root data
  modify fun st => { st with root := root }
  match failure with
  | none => return
  | some (code, stderr) => throw (.err (.execution
      ("btrfs receive failed (exit " ++ toString code ++ "): " ++ stderr)))

def restoreStepBeside (plan : PreparedRestore) (received : Finset String) (step : RestoreStep) :
    RestoreAct C (Finset String) :=
  let subvolName := subvolumeName plan.volume step.snap.raw
  if subvolName ∈ plan.preExisting then return received
  else if subvolName ∈ received then return received
  else do
    let archive ← liftExcept
      (orPanic (plan.destMeta.archives.find? fun a => a.timestamp == step.snap))
    restoreArchiveBeside observe Z T env plan.volume step archive
    return insert subvolName received

def restoreBeside (volume : String) (snapshots : List String)
    (minTimestamp maxTimestamp : Option String) : RestoreAct C Unit := do
  let destState ← onWorld (inspectDestVolumeBeside observe env volume)
  let st ← get
  let plan ← liftExcept (prepareRestore volume destState st.root.entries snapshots minTimestamp
    maxTimestamp)
  let _ ← plan.steps.foldlM (restoreStepBeside observe Z T env plan) ∅
  return

end Restore

/-! ## Alone -/

section Alone

variable (Z : StreamCodec) (T : Transfer String C Bytes) (env : Env)

theorem ChunkStreamReader.readLoopBeside_idle (len fuel : ℕ) (r : ChunkStreamReader) :
    r.readLoopBeside (pure ()) env len fuel = r.readLoop env len fuel := by
  unfold readLoopBeside readLoop loadNextChunkBeside
  simp only [pure_bind]
  split_ifs
  · rfl
  · congr 1
    funext x
    split_ifs
    · cases fuel with
      | zero => rfl
      | succ fuel => exact readLoopBeside_idle len fuel x.2
    · rfl

theorem ChunkStreamReader.readToEndBeside_idle (fuel : ℕ) (r : ChunkStreamReader) :
    r.readToEndBeside (pure ()) env fuel = r.readToEnd env fuel := by
  induction fuel generalizing r with
  | zero =>
    unfold readToEndBeside readToEnd readBeside read
    simp only [readLoopBeside_idle]
  | succ fuel ih =>
    unfold readToEndBeside readToEnd readBeside read
    simp only [readLoopBeside_idle, ih]

theorem readArchiveBeside_idle (volume : String) (archive : VolumeArchive) :
    readArchiveBeside (pure ()) Z env volume archive = readArchive Z env volume archive := by
  unfold readArchiveBeside
  simp only [pure_bind, ChunkStreamReader.readToEndBeside_idle]
  rfl

/-- When nothing happens between the calls, this is the restore. -/
theorem restoreBeside_idle :
    restoreBeside (C := C) (pure ()) Z T env = restore Z T env := by
  have harchive : restoreArchiveBeside (C := C) (pure ()) Z T env = restoreArchive Z T env := by
    unfold restoreArchiveBeside
    simp only [readArchiveBeside_idle]
    rfl
  unfold restoreBeside restore inspectDestVolumeBeside restoreStepBeside restoreStep
  simp only [pure_bind, harchive]

end Alone

/-! ## Two views of the destination -/

/-- Worlds related by `R` are at the same call and have the same objects under the keys in
`K`, also after another call or another observation. -/
structure Views (K : String → Prop) (R : World → World → Prop) (observe observe' : Act Unit) :
    Prop where
  calls : ∀ w w', R w w' → w'.calls = w.calls
  objects : ∀ w w', R w w' → ∀ key, K key → w'.store key = w.store key
  tick : ∀ w w', R w w' → R w.tick w'.tick
  observe : Lockstep R (fun _ _ => True) observe observe'

section Reading

variable {K : String → Prop} {R : World → World → Prop} {observe observe' : Act Unit}
  (h : Views K R observe observe') (env : Env)

include h

theorem Views.lockstep_call : Lockstep R Eq (call env) (call env) := by
  intro w w' hw
  simp only [wp_call, h.calls w w' hw]
  constructor
  · intro hnone
    simp only [hnone, reduceCtorEq, false_implies, implies_true, and_true, true_implies, true_and]
    exact h.tick w w' hw
  · intro e he
    simp only [he, reduceCtorEq, false_implies, true_and, Option.some.injEq]
    rintro _ rfl
    exact ⟨rfl, h.tick w w' hw⟩

theorem Views.lockstep_ask {α : Type} (answer : ℕ → α) :
    Lockstep R Eq (ask answer) (ask answer) := by
  intro w w' hw
  simp only [wp_ask, h.calls w w' hw, true_and]
  exact h.tick w w' hw

/-- Both sides have the same reader, with chunks under the keys in `K`. -/
def SameReader (K : String → Prop) (r r' : ChunkStreamReader) : Prop :=
  r' = r ∧ ∀ name ∈ r.chunkFilenames, K (pathInSnapshot r.volume r.snapshotRaw name)

theorem Views.lockstep_loadNextChunk {r r' : ChunkStreamReader} (hr : SameReader K r r') :
    Lockstep R (fun x x' => x'.1 = x.1 ∧ SameReader K x.2 x'.2)
      (r.loadNextChunkBeside observe env) (r'.loadNextChunkBeside observe' env) := by
  obtain ⟨rfl, hkeys⟩ := hr
  unfold ChunkStreamReader.loadNextChunkBeside ChunkStreamReader.loadNextChunk
  refine lockstep_bind h.observe fun _ _ _ => ?_
  cases hname : r'.chunkFilenames[r'.currentIdx]? with
  | none => exact lockstep_pure ⟨rfl, rfl, hkeys⟩
  | some name =>
    refine lockstep_bind (h.lockstep_call env) fun _ _ _ => ?_
    refine lockstep_bind lockstep_get fun w w' hw => ?_
    simp only [h.objects w w' hw _ (hkeys name (List.mem_of_getElem? hname))]
    cases w.store (pathInSnapshot r'.volume r'.snapshotRaw name) with
    | none => exact lockstep_throw _
    | some blob =>
      cases blob with
      | part data => exact lockstep_pure ⟨rfl, rfl, hkeys⟩
      | metadata m => exact lockstep_throw _

omit h in
theorem SameReader.readCursor {r r' : ChunkStreamReader} (hr : SameReader K r r') (len : ℕ) :
    (r'.readCursor len).1 = (r.readCursor len).1 ∧
      SameReader K (r.readCursor len).2 (r'.readCursor len).2 := by
  obtain ⟨rfl, hkeys⟩ := hr
  refine ⟨rfl, rfl, ?_⟩
  unfold ChunkStreamReader.readCursor
  cases r'.currentCursor <;> exact hkeys

theorem Views.lockstep_readLoop (len fuel : ℕ) {r r' : ChunkStreamReader}
    (hr : SameReader K r r') :
    Lockstep R (fun x x' => x'.1 = x.1 ∧ SameReader K x.2 x'.2)
      (r.readLoopBeside observe env len fuel) (r'.readLoopBeside observe' env len fuel) := by
  obtain ⟨hpiece, hcursor⟩ := hr.readCursor len
  unfold ChunkStreamReader.readLoopBeside
  simp only [hpiece]
  split_ifs
  · exact lockstep_pure ⟨rfl, hcursor⟩
  · refine lockstep_bind (h.lockstep_loadNextChunk env hcursor) ?_
    rintro ⟨more, r⟩ ⟨more', r'⟩ ⟨rfl, hr⟩
    simp only
    split_ifs
    · cases fuel with
      | zero => exact lockstep_throw _
      | succ fuel => exact Views.lockstep_readLoop len fuel hr
    · exact lockstep_pure ⟨rfl, hr⟩

theorem Views.lockstep_readToEnd (fuel : ℕ) {r r' : ChunkStreamReader}
    (hr : SameReader K r r') :
    Lockstep R Eq (r.readToEndBeside observe env fuel) (r'.readToEndBeside observe' env fuel) := by
  unfold ChunkStreamReader.readToEndBeside ChunkStreamReader.readBeside
  refine lockstep_bind (h.lockstep_ask _) ?_
  rintro len _ rfl
  rw [hr.1]
  refine lockstep_bind (h.lockstep_readLoop env len _ ⟨rfl, hr.2⟩) ?_
  rintro ⟨piece, r⟩ ⟨piece', r'⟩ ⟨rfl, hr⟩
  simp only
  split_ifs
  · exact lockstep_pure rfl
  · cases fuel with
    | zero => exact lockstep_throw _
    | succ fuel =>
      refine lockstep_bind (Views.lockstep_readToEnd fuel hr) ?_
      rintro rest _ rfl
      exact lockstep_pure rfl

theorem Views.lockstep_readArchive (Z : StreamCodec) (volume : String)
    {archive : VolumeArchive}
    (hkeys : ∀ c ∈ archive.chunks, K (pathInSnapshot volume archive.raw c.filename)) :
    Lockstep R Eq (readArchiveBeside observe Z env volume archive)
      (readArchiveBeside observe' Z env volume archive) := by
  unfold readArchiveBeside
  refine lockstep_bind h.observe fun _ _ _ => ?_
  refine lockstep_bind lockstep_get fun w w' hw => ?_
  have hsizes : archive.chunks.map (fun c =>
        (partBytes w'.store (pathInSnapshot volume archive.raw c.filename)).length) =
      archive.chunks.map fun c =>
        (partBytes w.store (pathInSnapshot volume archive.raw c.filename)).length := by
    apply List.map_congr_left
    intro c hc
    rw [partBytes, h.objects w w' hw _ (hkeys c hc), partBytes]
  simp only [hsizes]
  have hreader : SameReader K (ChunkStreamReader.new volume archive)
      (ChunkStreamReader.new volume archive) := by
    refine ⟨rfl, ?_⟩
    intro name hname
    obtain ⟨c, hc, rfl⟩ := List.mem_map.mp hname
    exact hkeys c hc
  refine lockstep_bind (h.lockstep_readToEnd env _ hreader) ?_
  rintro bytes _ rfl
  cases Z.decompress bytes with
  | some data => exact lockstep_pure rfl
  | none => exact lockstep_throw _

end Reading

section Restoring

variable {K : String → Prop} {R : World → World → Prop} {observe observe' : Act Unit}
  (h : Views K R observe observe') (Z : StreamCodec) (T : Transfer String C Bytes) (env : Env)

/-- Two restores that have received the same in related worlds. -/
structure SameRestoring (R : World → World → Prop) (st st' : Restoring C) : Prop where
  world : R st.world st'.world
  root : st'.root = st.root
  receives : st'.receives = st.receives

theorem inStep_onWorld {α β : Type} {V : α → β → Prop} {x : Act α} {y : Act β}
    {st st' : Restoring C} (hxy : InStep R V x y st.world st'.world) (hroot : st'.root = st.root)
    (hreceives : st'.receives = st.receives) :
    InStep (SameRestoring R) V (onWorld x) (onWorld y) st st' :=
  InStep.zoom hxy fun _ _ hw => ⟨hw, hroot, hreceives⟩

theorem lockstep_onWorld {α β : Type} {V : α → β → Prop} {x : Act α} {y : Act β}
    (hxy : Lockstep R V x y) :
    Lockstep (SameRestoring (C := C) R) V (onWorld x) (onWorld y) :=
  fun _ _ hst => inStep_onWorld (hxy.inStep hst.world) hst.root hst.receives

include h

theorem Views.lockstep_restoreArchive (volume : String) (step : RestoreStep)
    {archive : VolumeArchive}
    (hkeys : ∀ c ∈ archive.chunks, K (pathInSnapshot volume archive.raw c.filename)) :
    Lockstep (SameRestoring R) Eq (restoreArchiveBeside observe Z T env volume step archive)
      (restoreArchiveBeside observe' Z T env volume step archive) := by
  unfold restoreArchiveBeside
  refine lockstep_bind (lockstep_modify fun st st' hst => ?_) fun _ _ _ => ?_
  · exact ⟨hst.world, hst.root, by rw [hst.root, hst.receives]⟩
  refine lockstep_bind (lockstep_onWorld (h.lockstep_call env)) fun _ _ _ => ?_
  refine lockstep_bind (lockstep_afterError
    (lockstep_onWorld (h.lockstep_readArchive env Z volume hkeys)) fun st st' hst => ?_) ?_
  · exact ⟨hst.world, by rw [hst.root], hst.receives⟩
  rintro data _ rfl
  refine lockstep_bind lockstep_get fun st st' hst => ?_
  rw [hst.root]
  refine lockstep_bind (lockstep_modify fun st st' hst => ?_) fun _ _ _ => ?_
  · exact ⟨hst.world, rfl, hst.receives⟩
  cases (T.receive st.root data).1 with
  | none => exact lockstep_pure rfl
  | some failure => exact lockstep_throw _

/-- Two plans with the same steps, which find the same archives, with chunks in `K`. -/
structure SamePlan (K : String → Prop) (plan plan' : PreparedRestore) : Prop where
  volume : plan'.volume = plan.volume
  steps : plan'.steps = plan.steps
  preExisting : plan'.preExisting = plan.preExisting
  archives : ∀ step ∈ plan.steps,
    plan'.destMeta.archives.find? (fun a => a.timestamp == step.snap) =
      plan.destMeta.archives.find? (fun a => a.timestamp == step.snap)
  keys : ∀ step ∈ plan.steps, ∀ a,
    plan.destMeta.archives.find? (fun a => a.timestamp == step.snap) = some a →
      ∀ c ∈ a.chunks, K (pathInSnapshot plan.volume a.raw c.filename)

theorem Views.lockstep_restoreStep {plan plan' : PreparedRestore} (hplan : SamePlan K plan plan')
    (received : Finset String) {step : RestoreStep} (hstep : step ∈ plan.steps) :
    Lockstep (SameRestoring R) Eq (restoreStepBeside observe Z T env plan received step)
      (restoreStepBeside observe' Z T env plan' received step) := by
  unfold restoreStepBeside
  rw [hplan.volume, hplan.preExisting, hplan.archives step hstep]
  simp only
  split_ifs
  · exact lockstep_pure rfl
  · exact lockstep_pure rfl
  · cases hfind : plan.destMeta.archives.find? (fun a => a.timestamp == step.snap) with
    | none => exact lockstep_bind (V := fun _ _ => False) (lockstep_throw _) fun _ _ hf => hf.elim
    | some a =>
      refine lockstep_bind (V := fun b b' => b = a ∧ b' = a) (lockstep_pure ⟨rfl, rfl⟩) ?_
      rintro b b' ⟨rfl, rfl⟩
      exact lockstep_bind (h.lockstep_restoreArchive Z T env plan.volume step
        (hplan.keys step hstep _ hfind)) fun _ _ _ => lockstep_pure rfl

/-- When both find metadata that they prepare the same from, the restores end the same. -/
theorem Views.restoreBeside_inStep {volume : String} {snapshots : List String}
    {lo hi : Option String} {V : DestState → DestState → Prop} {st st' : Restoring C}
    (hinspect : InStep (SameRestoring R) V
      (onWorld (inspectDestVolumeBeside observe env volume))
      (onWorld (inspectDestVolumeBeside observe' env volume)) st st')
    (hprepare : ∀ dest dest' entries, V dest dest' →
      (∃ plan plan', prepareRestore volume dest entries snapshots lo hi = .ok plan ∧
        prepareRestore volume dest' entries snapshots lo hi = .ok plan' ∧ SamePlan K plan plan') ∨
      ∃ e, prepareRestore volume dest entries snapshots lo hi = .error e ∧
        prepareRestore volume dest' entries snapshots lo hi = .error e) :
    InStep (SameRestoring R) Eq (restoreBeside observe Z T env volume snapshots lo hi)
      (restoreBeside observe' Z T env volume snapshots lo hi) st st' := by
  unfold restoreBeside
  refine hinspect.bind fun dest dest' hdest => ?_
  refine lockstep_bind lockstep_get fun st st' hst => ?_
  rw [hst.root]
  rcases hprepare dest dest' st.root.entries hdest with
    ⟨plan, plan', hplan, hplan', hsame⟩ | ⟨e, hplan, hplan'⟩
  · rw [hplan, hplan']
    refine lockstep_bind (V := fun p p' => p = plan ∧ p' = plan') (lockstep_pure ⟨rfl, rfl⟩) ?_
    rintro _ _ ⟨rfl, rfl⟩
    rw [hsame.steps]
    refine lockstep_bind (lockstep_foldlM _ ?_ rfl) fun _ _ _ => lockstep_pure rfl
    rintro step hstep received _ rfl
    exact h.lockstep_restoreStep Z T env hsame received hstep
  · rw [hplan, hplan']
    exact lockstep_bind (V := fun _ _ => False) (lockstep_throw e) fun _ _ hf => hf.elim

end Restoring

end Bbkar
