import Bbkar.Preservation
import Bbkar.DryRun
import Bbkar.DryRestore
import Bbkar.LsCommand
import Bbkar.Status

/-!
# Commands that only read

Whatever they find and however they end, `status`, `ls`, `dryrun`, `dryrestore` and `restore`
leave the destination as it is. All but the last leave the restore root as well.
-/
namespace Bbkar
open Codec Effects SendReceive

/-- The destination is as it was in `w₀`, and nothing has been recorded since. -/
def Unchanged (w₀ w : World) : Prop := w.store = w₀.store ∧ w.trace = w₀.trace

theorem Unchanged.refl (w : World) : Unchanged w w := ⟨rfl, rfl⟩

section Calls

variable {w₀ : World} (env : Env)

theorem unchanged_call : Preserves (Unchanged w₀) (call env) := by
  intro w hw
  rw [wp_call]
  exact ⟨fun _ => hw, fun _ _ => hw⟩

theorem unchanged_ask {α : Type} (answer : ℕ → α) : Preserves (Unchanged w₀) (ask answer) :=
  fun _ hw => hw

theorem unchanged_inspectDestVolume (volume : String) :
    Preserves (Unchanged w₀) (inspectDestVolume env volume) := by
  unfold inspectDestVolume
  refine (unchanged_call env).bind fun _ => preserves_get.bind fun w => ?_
  split
  · exact preserves_pure _
  · exact preserves_pure _
  · exact preserves_throw _

theorem unchanged_callInspectSource : Preserves (Unchanged w₀) (callInspectSource env) :=
  (unchanged_call env).bind fun _ => preserves_liftExcept _

theorem unchanged_readSubvolume (volume : String) (step : RunStep) :
    Preserves (Unchanged w₀) (readSubvolume env volume step) := by
  cases step with
  | sendFull snap => exact fun _ hw => hw
  | sendIncremental snap parent => exact fun _ hw => hw

theorem unchanged_measureSubvolume (Z : StreamEncoder) (stream : SendStream) :
    Preserves (Unchanged w₀) (measureSubvolume Z env stream) := by
  refine (unchanged_call env).bind fun _ => Preserves.bind ?_ fun _ =>
    (unchanged_call env).bind fun _ => preserves_pure _
  refine preserves_foldlM (fun session item => ?_) _ _
  unfold measureItem
  split
  · exact preserves_throw _
  · exact preserves_pure _
  · exact (unchanged_call env).bind fun _ => preserves_pure _

/-- A loop over the volumes keeps what its callbacks keep. -/
theorem preserves_forEachSync {σ : Type} {I : σ → Prop} {config : Config} {name : Option String}
    {inspectSource : Exec Halt σ (List (String × SourceState))}
    {onSyncStart onSyncEnd : Exec Halt σ Unit} {onVolume : VolumeContext → Exec Halt σ Unit}
    (hsource : Preserves I inspectSource) (hstart : Preserves I onSyncStart)
    (hvolume : ∀ ctx, Preserves I (onVolume ctx)) (hend : Preserves I onSyncEnd) :
    Preserves I (forEachSync inspectSource config name onSyncStart onVolume onSyncEnd) := by
  rcases selected_or_unvisited config name with ⟨sync, hsync, hname⟩ | hnone
  · intro s hs
    rw [wp_forEachSync hsync hname]
    refine wp_mono_ok (hstart s hs) fun _ s₁ hs₁ => ?_
    refine wp_mono_ok (hsource s₁ hs₁) fun states s₂ hs₂ => ?_
    exact wp_mono_ok (preserves_forM hvolume _ s₂ hs₂) fun _ s₃ hs₃ => hend s₃ hs₃
  · obtain ⟨r, hr⟩ := forEachSync_unvisited hnone
    intro s hs
    unfold wp
    rw [hr]
    cases r <;> exact hs

end Calls

/-! ## Printing commands -/

section Printing

variable {w₀ : World} (env : Env) (config : Config) (name : Option String)

theorem status_unchanged :
    Preserves (fun d : StatusWorld => Unchanged w₀ d.world) (status env config name) := by
  have hprint : ∀ line, Preserves (fun d : StatusWorld => Unchanged w₀ d.world)
      (StatusAct.printInfo line) := fun line => preserves_modify fun _ hd => hd
  have hexecutor : ∀ {α : Type} {x : Act α}, Preserves (Unchanged w₀) x →
      Preserves (fun d : StatusWorld => Unchanged w₀ d.world) (StatusAct.executor x) :=
    fun hx => hx.zoom (fun _ hd => hd) fun _ _ _ hw => hw
  refine preserves_forEachSync (hexecutor (unchanged_callInspectSource env)) (preserves_pure _)
    (fun ctx => ?_) (preserves_pure _)
  unfold statusVolume
  exact (hprint _).bind fun _ => (preserves_liftExcept _).bind fun _ =>
    (preserves_liftExcept _).bind fun _ => (hprint _).bind fun _ =>
      (hexecutor (unchanged_inspectDestVolume env _)).bind fun _ => (hprint _).bind fun _ =>
        hprint _

theorem ls_unchanged (restoreRoot : Option (List String)) :
    Preserves (fun d : LsWorld => Unchanged w₀ d.world) (ls env config name restoreRoot) := by
  have hprint : ∀ line, Preserves (fun d : LsWorld => Unchanged w₀ d.world)
      (LsAct.printInfo line) := fun line => preserves_modify fun _ hd => hd
  have hexecutor : ∀ {α : Type} {x : Act α}, Preserves (Unchanged w₀) x →
      Preserves (fun d : LsWorld => Unchanged w₀ d.world) (LsAct.executor x) :=
    fun hx => hx.zoom (fun _ hd => hd) fun _ _ _ hw => hw
  have hvolume : ∀ table ctx, Preserves (fun d : LsWorld => Unchanged w₀ d.world)
      (lsVolume env table ctx) := by
    intro table ctx
    unfold lsVolume
    exact (hprint _).bind fun _ => (hexecutor (unchanged_inspectDestVolume env _)).bind fun _ =>
      (preserves_liftExcept _).bind fun _ => (hprint _).bind fun _ =>
        preserves_forM (fun row => hprint _) _
  have hloop : ∀ table name, Preserves (fun d : LsWorld => Unchanged w₀ d.world)
      (forEachSync (LsAct.executor (callInspectSource env)) config name (return)
        (lsVolume env table) (return)) := fun table name =>
    preserves_forEachSync (hexecutor (unchanged_callInspectSource env)) (preserves_pure _)
      (hvolume table) (preserves_pure _)
  cases restoreRoot with
  | none => exact hloop _ name
  | some entries => exact (preserves_liftExcept _).bind fun _ => hloop _ _

theorem dryrun_unchanged (Z : StreamEncoder) (measureSend : Bool) :
    Preserves (fun d : DryWorld => Unchanged w₀ d.world)
      (dryrun Z env config measureSend name) := by
  have hprint : ∀ line, Preserves (fun d : DryWorld => Unchanged w₀ d.world) (printInfo line) :=
    fun line => preserves_modify fun _ hd => hd
  have hexecutor : ∀ {α : Type} {x : Act α}, Preserves (Unchanged w₀) x →
      Preserves (fun d : DryWorld => Unchanged w₀ d.world) (executor x) :=
    fun hx => hx.zoom (fun _ hd => hd) fun _ _ _ hw => hw
  have hwouldSend : ∀ volume step incremental line,
      Preserves (fun d : DryWorld => Unchanged w₀ d.world)
        (wouldSendStep Z env measureSend volume step incremental line) := by
    intro volume step incremental line
    unfold wouldSendStep
    split
    · apply (hexecutor (unchanged_readSubvolume env _ _)).bind
      intro stream
      apply (hexecutor (unchanged_measureSubvolume env Z stream)).bind
      intro result
      apply Preserves.bind
      · exact preserves_modify fun _ hd => hd
      · exact fun _ => hprint _
    · exact hprint _
  have hstep : ∀ volume step, Preserves (fun d : DryWorld => Unchanged w₀ d.world)
      (dryStep Z env measureSend volume step) := by
    intro volume step
    cases step <;> exact hwouldSend _ _ _ _
  refine preserves_forEachSync (hexecutor (unchanged_callInspectSource env))
    (preserves_modify fun _ hd => hd) (fun ctx => ?_) ?_
  · unfold dryVolume
    refine (hprint _).bind fun _ =>
      (hexecutor (unchanged_inspectDestVolume env _)).bind fun dest => ?_
    apply Preserves.bind
    · exact preserves_modify fun _ hd => hd
    · refine fun _ => (preserves_liftExcept _).bind fun plan => ?_
      split
      · exact hprint _
      · exact preserves_forM (hstep _) _
  · cases measureSend
    · exact preserves_get.bind fun _ => hprint _
    · exact preserves_get.bind fun _ => (hprint _).bind fun _ => preserves_get.bind fun _ =>
        hprint _

end Printing

/-! ## Restores -/

section Restores

variable {C : Type} {w₀ : World} (env : Env)

theorem unchanged_onWorld {α : Type} {x : Act α} {root : Root String C}
    (hx : Preserves (Unchanged w₀) x) :
    Preserves (fun st : Restoring C => Unchanged w₀ st.world ∧ st.root = root) (onWorld x) :=
  hx.zoom (fun _ hst => hst.1) fun _ _ hst hw => ⟨hw, hst.2⟩

theorem dryrestore_unchanged (r : RestoreAttempt C) (root : Root String C) :
    Preserves (fun st : Restoring C => Unchanged w₀ st.world ∧ st.root = root) r.dryrestore := by
  refine Preserves.bind ?_ fun _ => preserves_pure _
  exact (unchanged_onWorld (unchanged_inspectDestVolume r.env _)).bind fun _ =>
    preserves_get.bind fun _ => preserves_liftExcept _

theorem unchanged_loadNextChunk (r : ChunkStreamReader) :
    Preserves (Unchanged w₀) (r.loadNextChunk env) := by
  unfold ChunkStreamReader.loadNextChunk
  split
  · exact preserves_pure _
  · refine (unchanged_call env).bind fun _ => preserves_get.bind fun _ => ?_
    split
    · exact preserves_pure _
    · exact preserves_throw _

theorem unchanged_readLoop (len fuel : ℕ) (r : ChunkStreamReader) :
    Preserves (Unchanged w₀) (r.readLoop env len fuel) := by
  induction fuel generalizing r with
  | zero =>
    unfold ChunkStreamReader.readLoop
    dsimp only
    split
    · exact preserves_pure _
    · refine (unchanged_loadNextChunk env _).bind fun _ => ?_
      split
      · exact preserves_throw _
      · exact preserves_pure _
  | succ fuel ih =>
    unfold ChunkStreamReader.readLoop
    dsimp only
    split
    · exact preserves_pure _
    · refine (unchanged_loadNextChunk env _).bind fun _ => ?_
      split
      · exact ih _
      · exact preserves_pure _

theorem unchanged_readToEnd (fuel : ℕ) (r : ChunkStreamReader) :
    Preserves (Unchanged w₀) (r.readToEnd env fuel) := by
  induction fuel generalizing r with
  | zero =>
    unfold ChunkStreamReader.readToEnd
    refine (unchanged_ask _).bind fun _ => (unchanged_readLoop env _ _ _).bind fun _ => ?_
    dsimp only
    split
    · exact preserves_pure _
    · exact preserves_throw _
  | succ fuel ih =>
    unfold ChunkStreamReader.readToEnd
    refine (unchanged_ask _).bind fun _ => (unchanged_readLoop env _ _ _).bind fun _ => ?_
    dsimp only
    split
    · exact preserves_pure _
    · exact (ih _).bind fun _ => preserves_pure _

theorem unchanged_readArchive (Z : StreamCodec) (volume : String) (archive : VolumeArchive) :
    Preserves (Unchanged w₀) (readArchive Z env volume archive) := by
  unfold readArchive
  refine preserves_get.bind fun _ => (unchanged_readToEnd env _ _).bind fun _ => ?_
  split
  · exact preserves_pure _
  · exact preserves_throw _

theorem unchanged_restoreArchive (Z : StreamCodec) (T : Transfer String C Bytes)
    (volume : String) (step : RestoreStep) (archive : VolumeArchive) :
    Preserves (fun st : Restoring C => Unchanged w₀ st.world)
      (restoreArchive Z T env volume step archive) := by
  have honWorld : ∀ {α : Type} {x : Act α}, Preserves (Unchanged w₀) x →
      Preserves (fun st : Restoring C => Unchanged w₀ st.world) (onWorld x) :=
    fun hx => hx.zoom (fun _ hst => hst) fun _ _ _ hw => hw
  unfold restoreArchive
  apply Preserves.bind
  · exact preserves_modify fun _ hst => hst
  intro _
  apply (honWorld (unchanged_call env)).bind
  intro _
  apply Preserves.bind
  · exact (honWorld (unchanged_readArchive env Z volume archive)).afterError fun _ hst => hst
  intro data
  apply preserves_get.bind
  intro st
  apply Preserves.bind
  · exact preserves_modify fun _ hst => hst
  intro _
  split
  · exact preserves_pure _
  · exact preserves_throw _

/-- A restore changes its root, and nothing on the destination. -/
theorem restore_unchanged (Z : StreamCodec) (T : Transfer String C Bytes) (volume : String)
    (snapshots : List String) (lo hi : Option String) :
    Preserves (fun st : Restoring C => Unchanged w₀ st.world)
      (restore Z T env volume snapshots lo hi) := by
  have hinspect : Preserves (fun st : Restoring C => Unchanged w₀ st.world)
      (onWorld (inspectDestVolume env volume)) :=
    (unchanged_inspectDestVolume env volume).zoom (fun _ hst => hst) fun _ _ _ hw => hw
  unfold restore
  apply hinspect.bind
  intro dest
  apply preserves_get.bind
  intro st
  apply (preserves_liftExcept _).bind
  intro plan
  refine Preserves.bind (preserves_foldlM (fun received step => ?_) _ _) fun _ => preserves_pure _
  unfold restoreStep
  dsimp only
  split
  · exact preserves_pure _
  · split
    · exact preserves_pure _
    · apply (preserves_liftExcept _).bind
      intro archive
      exact (unchanged_restoreArchive env Z T _ step archive).bind fun _ => preserves_pure _

end Restores

end Bbkar
