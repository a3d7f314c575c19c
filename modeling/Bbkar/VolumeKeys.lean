import Bbkar.PlanRun

/-!
# The keys of a volume

Every path of a volume begins with its name and a slash. Names without a slash therefore
keep volumes apart, and a run over one volume, however it ends, changes nothing of another.
-/
namespace Bbkar
open Codec Effects Function

def KeyOf (volume key : String) : Prop := ∃ rest, key = trimMatches '/' volume ++ "/" ++ rest

theorem keyOf_pathInVolume (volume name : String) : KeyOf volume (pathInVolume volume name) :=
  ⟨_, rfl⟩

theorem keyOf_pathInSnapshot (volume snapshot name : String) :
    KeyOf volume (pathInSnapshot volume snapshot name) :=
  ⟨trimMatches '/' snapshot ++ "/" ++ trimMatches '/' name, by
    simp only [pathInSnapshot, String.append_assoc]⟩

theorem keyOf_metaKey (volume : String) : KeyOf volume (metaKey volume) := keyOf_pathInVolume _ _

theorem PartsOf.keyOf {volume snapshot key : String} (h : PartsOf volume snapshot key) :
    KeyOf volume key := by
  obtain ⟨n, rfl⟩ := h
  exact keyOf_pathInSnapshot _ _ _

/-- The first slash of a key ends the name of its volume. -/
theorem KeyOf.unique {volume volume' key : String} (hv : SlashFree volume)
    (hv' : SlashFree volume') (h : KeyOf volume key) (h' : KeyOf volume' key) :
    volume = volume' := by
  obtain ⟨rest, rfl⟩ := h
  obtain ⟨rest', h'⟩ := h'
  rw [trimMatches_eq_self hv, trimMatches_eq_self hv'] at h'
  have hl := congrArg String.toList h'
  simp only [String.toList_append, List.append_assoc] at hl
  exact String.toList_inj.mp (append_slash_inj hv hv' hl).1

/-- Metadata is no part file, whatever the snapshot is called: their names end differently. -/
theorem metaKey_not_part (volume volume' snapshot : String) :
    ¬ PartsOf volume' snapshot (metaKey volume) := by
  rintro ⟨n, h⟩
  have hl := congrArg (fun s => s.toList.reverse.take 4) h
  rw [metaKey, pathInVolume, partKey, pathInSnapshot, trimMatches_eq_self slashFree_metaFilename,
    trimMatches_eq_self (slashFree_partFilename n), partFilename] at hl
  simp [metaFilename] at hl

/-- Objects that are not the volume's are those of `store`. -/
def HasOthers (volume : String) (store : Store) (w : World) : Prop :=
  ∀ key, ¬ KeyOf volume key → w.store key = store key

theorem hasOthers_observes (volume : String) (store : Store) :
    Observes (HasOthers volume store) := by
  intro w w' hs _ h key hkey
  rw [hs, h key hkey]

section Frame

variable {H : IncrementalHash} {Z : StreamEncoder} {env : Env} {ctx : VolumeContext}

theorem keepsSteps_hasOthers (store : Store) :
    KeepsSteps False H Z env ctx (HasOthers ctx.volume store) (HasOthers ctx.volume store) := by
  have hsending : ∀ {step : RunStep} {stream : SendStream} {w w' : World},
      HasOthers ctx.volume store w → Sending env ctx step stream w w' →
      HasOthers ctx.volume store w' := by
    intro step stream w w' hw hs key hkey
    rw [hs.frame.store.outside key fun hpart => hkey hpart.keyOf]
    exact hw key hkey
  refine .invariant False.elim (fun m step stream w w' hw _ _ hs => hsending hw hs) ?_
  intro m step stream chunks now w w₁ w' hw _ _ hs ht key hkey
  have hw₁ := hsending hw hs.toSending key hkey
  rcases ht.store with hst | hst
  · rw [hst, hw₁]
  · have hk : key ≠ metaKey ctx.volume := by
      rintro rfl
      exact hkey (keyOf_metaKey _)
    rw [hst, update_of_ne hk, hw₁]

variable (H Z env)

/-- A run over a volume stays among the keys of the volume. -/
theorem runVolume_hasOthers (ctx : VolumeContext) (w : World) :
    HasOthers ctx.volume w.store (outcome (runVolume H Z env ctx) w).2 :=
  (runVolume_preserves (hasOthers_observes ctx.volume w.store)
    (keepsSteps_hasOthers w.store)).final fun _ _ => rfl

/-- It leaves every other volume as it is. -/
theorem runVolume_other {volume key : String} (hctx : SlashFree ctx.volume)
    (hv : SlashFree volume) (hne : volume ≠ ctx.volume) (hkey : KeyOf volume key) (w : World) :
    (outcome (runVolume H Z env ctx) w).2.store key = w.store key :=
  runVolume_hasOthers H Z env ctx w key fun hkey' => hne (hkey.unique hv hctx hkey')

end Frame

end Bbkar
