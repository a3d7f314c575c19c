import Bbkar.Restore

/-!
# The restore plan is the dependency closure

The walk from one target gives its lineage. Merging keeps each archive once, and sorting
puts parents first because they are older.
-/
namespace Bbkar
open KeySort ParentForest

/-! ## Lists without repetition -/

/-- The set holds the keys of the list, and no key occurs twice. -/
structure Unseen {α : Type} (key : α → String) (st : Finset String × List α) : Prop where
  seen : st.1 = (st.2.map key).toFinset
  nodup : (st.2.map key).Nodup

theorem Unseen.empty {α : Type} (key : α → String) : Unseen key (∅, []) := ⟨by simp, by simp⟩

theorem Unseen.mem_seen {α : Type} {key : α → String} {st : Finset String × List α}
    (h : Unseen key st) {k : String} : k ∈ st.1 ↔ k ∈ st.2.map key := by
  rw [h.seen, List.mem_toFinset]

theorem Unseen.pushUnseen {α : Type} {key : α → String} {st : Finset String × List α}
    (h : Unseen key st) (x : α) : Unseen key (pushUnseen key st x) := by
  unfold Bbkar.pushUnseen
  split_ifs with hx
  · exact h
  · rw [h.mem_seen] at hx
    refine ⟨?_, ?_⟩
    · rw [h.seen]
      ext k
      simp
    · rw [List.map_append, List.nodup_append]
      refine ⟨h.nodup, by simp, ?_⟩
      rintro a ha b hb rfl
      simp only [List.map_cons, List.map_nil, List.mem_singleton] at hb
      exact hx (hb ▸ ha)

/-- Nothing is lost: what was listed stays, and the new key is listed. -/
theorem pushUnseen_keys {α : Type} {key : α → String} {st : Finset String × List α}
    (h : Unseen key st) (x : α) (k : String) :
    k ∈ (pushUnseen key st x).2.map key ↔ k ∈ st.2.map key ∨ k = key x := by
  unfold pushUnseen
  split_ifs with hx
  · rw [h.mem_seen] at hx
    constructor
    · exact Or.inl
    · rintro (hk | rfl)
      · exact hk
      · exact hx
  · simp

theorem pushUnseen_mem {α : Type} {key : α → String} {st : Finset String × List α} {x y : α}
    (h : y ∈ (pushUnseen key st x).2) : y ∈ st.2 ∨ y = x := by
  unfold pushUnseen at h
  split_ifs at h with hx
  · exact Or.inl h
  · simpa using h

theorem foldl_pushUnseen {α : Type} {key : α → String} {st : Finset String × List α}
    (h : Unseen key st) (xs : List α) :
    Unseen key (xs.foldl (pushUnseen key) st) ∧
      (∀ k, k ∈ (xs.foldl (pushUnseen key) st).2.map key ↔
        k ∈ st.2.map key ∨ k ∈ xs.map key) ∧
      ∀ y ∈ (xs.foldl (pushUnseen key) st).2, y ∈ st.2 ∨ y ∈ xs := by
  induction xs generalizing st with
  | nil => exact ⟨h, by simp, fun y hy => Or.inl hy⟩
  | cons x xs ih =>
    obtain ⟨hu, hkeys, hmem⟩ := ih (h.pushUnseen x)
    refine ⟨hu, ?_, ?_⟩
    · intro k
      rw [List.foldl_cons, hkeys, pushUnseen_keys h, List.map_cons, List.mem_cons, or_assoc]
    · intro y hy
      rcases hmem y hy with hy | hy
      · rcases pushUnseen_mem hy with hy | rfl
        · exact Or.inl hy
        · exact Or.inr (by simp)
      · exact Or.inr (List.mem_cons_of_mem _ hy)

/-! ## The walk of one target -/

/-- The parent a step receives on. -/
def RestoreStep.parent : RestoreStep → Option Timestamp
  | receiveFull _ => none
  | receiveIncremental _ p => some p

/-- The step receives an archive, on its recorded parent if it has one. -/
def Receives (archives : List VolumeArchive) (step : RestoreStep) : Prop :=
  ∃ a ∈ archives, a.timestamp = step.snap ∧
    a.parentTimestamp = step.parent.map Timestamp.raw ∧ ∀ p, step.parent = some p → p.Parsed

/-- Unique timestamps, older archived parents, and timestamps as `parse` makes them. -/
structure Coherent (archives : List VolumeArchive) : Prop extends WellFormed archives where
  parsed : ∀ a ∈ archives, a.timestamp.Parsed

/-- The `while let` loop collects the archives above, ending at a full one. -/
theorem parentWalk_eq {archives : List VolumeArchive} (hw : WellFormed archives)
    {name : String} {l : List String} (h : Lineage (parentForest archives) name l) :
    ∀ (fuel : ℕ) (rest : List VolumeArchive) (a : VolumeArchive), a ∈ archives →
      a.raw = name → l.length ≤ fuel + 1 →
      ∃ above, parentWalk archives fuel (a :: rest) a = .ok (above ++ a :: rest) ∧
        above.map VolumeArchive.raw ++ [a.raw] = l ∧ ∀ b ∈ above, b ∈ archives := by
  induction h with
  | root h =>
    intro fuel rest a ha hname _
    obtain ⟨b, hb, hbn, hbp⟩ := (parentForest_eq_some hw.nodup).mp h
    obtain rfl : b = a := eq_of_raw_eq hw.nodup hb ha (hbn.trans hname.symm)
    refine ⟨[], ?_, by simp [hname], by simp⟩
    unfold parentWalk
    simp [hbp]
  | @child k p l h hl ih =>
    intro fuel rest a ha hname hfuel
    obtain ⟨b, hb, hbn, hbp⟩ := (parentForest_eq_some hw.nodup).mp h
    obtain rfl : b = a := eq_of_raw_eq hw.nodup hb ha (hbn.trans hname.symm)
    obtain ⟨c, hc, rfl⟩ := mem_raws.mp (parentForest_ne_none.mp hl.present)
    have hpos := List.length_pos_iff.mpr hl.ne_nil
    rw [List.length_append, List.length_singleton] at hfuel
    obtain ⟨fuel, rfl⟩ : ∃ f, fuel = f + 1 := ⟨fuel - 1, by omega⟩
    obtain ⟨above, hwalk, hl', hmem⟩ := ih fuel (b :: rest) c hc rfl (by omega)
    refine ⟨above ++ [c], ?_, by simp [← hl', hname], ?_⟩
    · unfold parentWalk
      simp [hbp, find?_raw hw.nodup hc, hwalk]
    · intro d hd
      rcases List.mem_append.mp hd with hd | hd
      · exact hmem d hd
      · rwa [List.mem_singleton.mp hd]

theorem restoreStepOf_ok {archives : List VolumeArchive} (hc : Coherent archives)
    {a : VolumeArchive} (ha : a ∈ archives) :
    ∃ step, restoreStepOf a = .ok step ∧ step.snap = a.timestamp ∧ Receives archives step := by
  unfold restoreStepOf
  cases hp : a.parentTimestamp with
  | none => exact ⟨.receiveFull a.timestamp, rfl, rfl, a, ha, rfl, by simp [hp, RestoreStep.parent],
      by simp [RestoreStep.parent]⟩
  | some p =>
    obtain ⟨_, b, hb, rfl⟩ := hc.parent a ha p hp
    have hparse : Timestamp.parse b.raw = some b.timestamp := hc.parsed b hb
    refine ⟨.receiveIncremental a.timestamp b.timestamp, by simp [hparse, orPanic, Except.map],
      rfl, a, ha, rfl, by simp [hp, RestoreStep.parent, VolumeArchive.raw], ?_⟩
    rintro q hq
    obtain rfl : b.timestamp = q := by simpa [RestoreStep.parent] using hq
    exact hc.parsed b hb

theorem mapM_restoreStepOf {archives : List VolumeArchive} (hc : Coherent archives)
    {chain : List VolumeArchive} (h : ∀ a ∈ chain, a ∈ archives) :
    ∃ steps, chain.mapM restoreStepOf = .ok steps ∧
      steps.map (·.snap) = chain.map (·.timestamp) ∧ ∀ s ∈ steps, Receives archives s := by
  induction chain with
  | nil => exact ⟨[], rfl, rfl, by simp⟩
  | cons a chain ih =>
    obtain ⟨step, hstep, hsnap, hrec⟩ := restoreStepOf_ok hc (h a (by simp))
    obtain ⟨steps, hsteps, hmap, hall⟩ := ih (fun b hb => h b (List.mem_cons_of_mem _ hb))
    refine ⟨step :: steps, ?_, by simp [hsnap, hmap], ?_⟩
    · simp [List.mapM_cons, hstep, hsteps, bind, Except.bind, pure, Except.pure]
    · intro s hs
      rcases List.mem_cons.mp hs with rfl | hs
      · exact hrec
      · exact hall s hs

/-- On coherent metadata the plan of an archive receives exactly its lineage, root first. -/
theorem buildRestorePlan_lineage {archives : List VolumeArchive} (hc : Coherent archives)
    {a : VolumeArchive} (ha : a ∈ archives) :
    ∃ plan, buildRestorePlan archives a.timestamp = .ok plan ∧
      Lineage (parentForest archives) a.raw (plan.steps.map (·.snap.raw)) ∧
      ∀ s ∈ plan.steps, Receives archives s := by
  have hw := hc.toWellFormed
  obtain ⟨l, hl⟩ := hw.exists_lineage ha
  have hfind := find?_timestamp hw.nodup ha
  have hlen := lineage_length_le hw hl
  obtain ⟨above, hwalk, habove, hmem⟩ := parentWalk_eq hw hl archives.length [] a ha rfl (by omega)
  have hall : ∀ b ∈ above ++ [a], b ∈ archives := by
    intro b hb
    rcases List.mem_append.mp hb with hb | hb
    · exact hmem b hb
    · rwa [List.mem_singleton.mp hb]
  obtain ⟨steps, hsteps, hmap, hrec⟩ := mapM_restoreStepOf hc hall
  refine ⟨⟨steps⟩, ?_, ?_, hrec⟩
  · simp [buildRestorePlan, hfind, hwalk, hsteps, bind, Except.bind, pure, Except.pure]
  · have hraws : steps.map (·.snap.raw) = l := by
      calc
        _ = (steps.map (·.snap)).map Timestamp.raw := by simp
        _ = (above ++ [a]).map VolumeArchive.raw := by
          rw [hmap, List.map_map]
          rfl
        _ = l := by rw [List.map_append]; exact habove
    change Lineage (parentForest archives) a.raw (steps.map (·.snap.raw))
    rw [hraws]
    exact hl

end Bbkar
