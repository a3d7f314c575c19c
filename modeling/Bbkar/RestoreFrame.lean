import Bbkar.EndToEnd
import Bbkar.DepthMoments
import Bbkar.RestoreBeside

/-!
# What a restore depends on

A restore looks at its targets, their ancestors and the part files of these, and at nothing
else of the destination. Archives that no kept one is on top of can be taken out of the
metadata, and their part files lost, without a difference to what restores of kept
snapshots do.
-/
namespace Bbkar
open KeySort ParentForest Codec Effects SendReceive Function

/-! ## Plans -/

/-- Some of the archives, with the parents of all of them. -/
structure Pruned (archives kept : List VolumeArchive) : Prop where
  nodup : (raws kept).Nodup
  subset : ∀ a ∈ kept, a ∈ archives
  parents : ∀ a ∈ kept, ∀ p, a.parentTimestamp = some p → p ∈ raws kept

section Plans

variable {archives kept : List VolumeArchive}

theorem Pruned.find_eq (h : Pruned archives kept) (hc : Coherent archives) {name : String}
    (hname : name ∈ raws kept) :
    kept.find? (fun a => a.raw == name) = archives.find? (fun a => a.raw == name) := by
  obtain ⟨a, ha, rfl⟩ := mem_raws.mp hname
  rw [find?_raw h.nodup ha, find?_raw hc.nodup (h.subset a ha)]

theorem Pruned.coherent (h : Pruned archives kept) (hc : Coherent archives) : Coherent kept := by
  constructor
  · constructor
    · exact h.nodup
    · intro a ha p hp
      exact ⟨(hc.parent a (h.subset a ha) p hp).1, mem_raws.mp (h.parents a ha p hp)⟩
  · intro a ha
    exact hc.parsed a (h.subset a ha)

/-- The walk never leaves what is kept. -/
theorem Pruned.walk_eq (h : Pruned archives kept) (hc : Coherent archives) (fuel : ℕ)
    (chain : List VolumeArchive) {a : VolumeArchive} (ha : a ∈ kept) :
    parentWalk kept fuel chain a = parentWalk archives fuel chain a := by
  induction fuel generalizing chain a with
  | zero =>
    unfold parentWalk
    cases a.parentTimestamp <;> rfl
  | succ fuel ih =>
    unfold parentWalk
    cases hp : a.parentTimestamp with
    | none => rfl
    | some p =>
      have hmem := h.parents a ha p hp
      simp only [h.find_eq hc hmem]
      obtain ⟨b, hb, rfl⟩ := mem_raws.mp hmem
      rw [find?_raw hc.nodup (h.subset b hb)]
      exact ih (b :: chain) hb

/-- A walk that has come to its end does not need the rest of its fuel. -/
theorem parentWalk_fuel {fuel more : ℕ} {chain result : List VolumeArchive} {a : VolumeArchive}
    (h : parentWalk archives fuel chain a = .ok result) (hle : fuel ≤ more) :
    parentWalk archives more chain a = .ok result := by
  induction fuel generalizing more chain a with
  | zero =>
    unfold parentWalk at h ⊢
    cases hp : a.parentTimestamp with
    | none => simpa [hp] using h
    | some p => simp [hp] at h
  | succ fuel ih =>
    obtain ⟨more, rfl⟩ := Nat.exists_eq_add_of_le' (Nat.one_le_of_lt hle)
    unfold parentWalk at h ⊢
    cases hp : a.parentTimestamp with
    | none => simpa [hp] using h
    | some p =>
      simp only [hp] at h ⊢
      cases hfind : archives.find? (fun b => b.raw == p) with
      | none => simp [hfind] at h
      | some b =>
        simp only [hfind] at h ⊢
        exact ih h (by omega)

theorem Pruned.plan_eq (h : Pruned archives kept) (hc : Coherent archives)
    {a : VolumeArchive} (ha : a ∈ kept) :
    buildRestorePlan kept a.timestamp = buildRestorePlan archives a.timestamp := by
  have hkept := h.coherent hc
  obtain ⟨above, hwalk, -, -⟩ := parentWalk_lineage hkept.toWellFormed ha
  have hlen : kept.length ≤ archives.length := by
    have hsub : raws kept ⊆ raws archives := by
      intro name hname
      obtain ⟨b, hb, rfl⟩ := mem_raws.mp hname
      exact mem_raws.mpr ⟨b, h.subset b hb, rfl⟩
    simpa [raws] using (List.subperm_of_subset h.nodup hsub).length_le
  have hall : parentWalk archives archives.length [a] a = .ok (above ++ [a]) := by
    rw [← h.walk_eq hc _ _ ha]
    exact parentWalk_fuel hwalk hlen
  unfold buildRestorePlan
  rw [find?_timestamp h.nodup ha, find?_timestamp hc.nodup (h.subset a ha)]
  simp only [hwalk, hall]

/-- The same steps, all of kept archives. -/
theorem Pruned.merge_eq (h : Pruned archives kept) (hc : Coherent archives)
    (targets : List Timestamp) (htargets : ∀ t ∈ targets, ∃ a ∈ kept, a.timestamp = t)
    (st : Finset String × List RestoreStep) :
    targets.foldlM (mergeTarget kept) st = targets.foldlM (mergeTarget archives) st := by
  induction targets generalizing st with
  | nil => rfl
  | cons t targets ih =>
    obtain ⟨a, ha, rfl⟩ := htargets t (by simp)
    rw [List.foldlM_cons, List.foldlM_cons]
    unfold mergeTarget
    rw [h.plan_eq hc ha]
    cases buildRestorePlan archives a.timestamp with
    | error e => rfl
    | ok plan => exact ih (fun t ht => htargets t (List.mem_cons_of_mem _ ht)) _

/-- Naming kept snapshots selects the same targets. -/
theorem Pruned.resolve_eq (h : Pruned archives kept) (hc : Coherent archives)
    {snapshots : List String} (hsome : snapshots ≠ []) (hnames : ∀ s ∈ snapshots, s ∈ raws kept) :
    resolveTargets kept snapshots none none = resolveTargets archives snapshots none none := by
  have hexplicit (st : Finset String × List Timestamp) :
      snapshots.foldlM (addExplicit kept) st = snapshots.foldlM (addExplicit archives) st := by
    clear hsome
    induction snapshots generalizing st with
    | nil => rfl
    | cons s snapshots ih =>
      rw [List.foldlM_cons, List.foldlM_cons]
      unfold addExplicit
      rw [h.find_eq hc (hnames s (by simp))]
      cases archives.find? (fun a => a.raw == s) with
      | none => rfl
      | some a => exact ih (fun t ht => hnames t (List.mem_cons_of_mem _ ht)) _
  unfold resolveTargets
  simp only [List.isEmpty_eq_false_iff.mpr hsome, Bool.not_false, Option.isSome_none, Bool.or_self,
    Bool.not_true, Bool.false_and, Bool.false_eq_true, if_false, hexplicit]

end Plans

/-! ## Restores -/

/-- The part files of the kept archives. -/
def PartOfKept (volume : String) (kept : List VolumeArchive) (key : String) : Prop :=
  ∃ a ∈ kept, ∃ c ∈ a.chunks, key = pathInSnapshot volume a.raw c.filename

/-- At the same call, on stores that have the same objects under the keys in `K`. -/
structure AgreeOn (K : String → Prop) (store store' : Store) (w w' : World) : Prop where
  calls : w'.calls = w.calls
  left : w.store = store
  right : w'.store = store'
  agree : ∀ key, K key → store' key = store key

section Restore

variable {C : Type} {K : String → Prop} {store store' : Store} (Z : StreamCodec)
  (T : Transfer String C Bytes) (env : Env)

theorem agreeOn_views : Views K (AgreeOn K store store') (pure ()) (pure ()) where
  calls _ _ h := h.calls
  objects w w' h key hkey := by
    rw [h.left, h.right]
    exact h.agree key hkey
  tick _ _ h := ⟨congrArg (· + 1) h.calls, h.left, h.right, h.agree⟩
  observe := lockstep_pure trivial

theorem lockstep_inspect {volume : String} {m m' : DestMeta} (hm : Persisted store volume m)
    (hm' : Persisted store' volume m') :
    Lockstep (AgreeOn K store store') (fun dest dest' => dest = ⟨some m⟩ ∧ dest' = ⟨some m'⟩)
      (inspectDestVolume env volume) (inspectDestVolume env volume) := by
  unfold inspectDestVolume
  refine lockstep_bind (agreeOn_views.lockstep_call env) fun _ _ _ => ?_
  refine lockstep_bind lockstep_get fun w w' hw => ?_
  have hload : w.store (metaKey volume) = some (.metadata m) := by rw [hw.left]; exact hm
  have hload' : w'.store (metaKey volume) = some (.metadata m') := by rw [hw.right]; exact hm'
  rw [hload, hload']
  exact lockstep_pure (by simp)

/-- What is prepared from the kept archives is what is prepared from all of them, and so is
the error. -/
theorem Pruned.prepare_eq {m m' : DestMeta} (hpruned : Pruned m.archives m'.archives)
    (hc : Coherent m.archives) {snapshots : List String} {lo hi : Option String}
    (hsame : resolveTargets m'.archives snapshots lo hi =
      resolveTargets m.archives snapshots lo hi) (volume : String) (entries : Finset String) :
    (∃ plan plan', prepareRestore volume ⟨some m⟩ entries snapshots lo hi = .ok plan ∧
      prepareRestore volume ⟨some m'⟩ entries snapshots lo hi = .ok plan' ∧
      SamePlan (PartOfKept volume m'.archives) plan plan') ∨
    ∃ e, prepareRestore volume ⟨some m⟩ entries snapshots lo hi = .error e ∧
      prepareRestore volume ⟨some m'⟩ entries snapshots lo hi = .error e := by
  cases htargets : resolveTargets m'.archives snapshots lo hi with
  | error e =>
    right
    refine ⟨e, ?_, ?_⟩
    · simp only [prepareRestore, ← hsame, htargets]
    · simp only [prepareRestore, htargets]
  | ok targets =>
    left
    have hkept := hpruned.coherent hc
    have harchived := resolveTargets_archived htargets
    obtain ⟨steps, hsteps', hclosure⟩ := prepareRestore_of_targets hkept volume entries htargets
    have hsteps : prepareRestore volume ⟨some m⟩ entries snapshots lo hi =
        .ok ⟨volume, m, steps, entries⟩ := by
      have hmerge := hpruned.merge_eq hc targets harchived (∅, [])
      simp only [prepareRestore, htargets, hmerge, ← hsame] at hsteps' ⊢
      cases hall : targets.foldlM (mergeTarget m.archives) (∅, []) with
      | error e => simp [hall] at hsteps'
      | ok st =>
        simp only [hall, Except.ok.injEq, PreparedRestore.mk.injEq, true_and, and_true] at hsteps' ⊢
        exact hsteps'
    have hfind : ∀ step ∈ steps, ∃ a ∈ m'.archives,
        m.archives.find? (fun b => b.timestamp == step.snap) = some a ∧
          m'.archives.find? (fun b => b.timestamp == step.snap) = some a := by
      intro step hstep
      obtain ⟨a, ha, hsnap, -⟩ := hclosure.receives step hstep
      rw [← hsnap]
      exact ⟨a, ha, find?_timestamp hc.nodup (hpruned.subset a ha),
        find?_timestamp hpruned.nodup ha⟩
    refine ⟨_, _, hsteps, hsteps', rfl, rfl, rfl, ?_, ?_⟩
    · intro step hstep
      obtain ⟨a, -, hall, hsome⟩ := hfind step hstep
      exact hsome.trans hall.symm
    · intro step hstep b hb c hchunk
      obtain ⟨a, ha, hall, -⟩ := hfind step hstep
      obtain rfl : a = b := Option.some.inj (hall.symm.trans hb)
      exact ⟨a, ha, c, hchunk, rfl⟩

/-- A destination that was pruned to some archives with all their ancestors gives every
restore that selects the same targets exactly as before: the same result, errors included,
on the same root after the same receives, whatever the calls answer. Only the part files of
the kept archives need to be there. -/
theorem restore_pruned (volume : String) {m m' : DestMeta} (hc : Coherent m.archives)
    (hpruned : Pruned m.archives m'.archives) {w w' : World} (hm : Persisted w.store volume m)
    (hm' : Persisted w'.store volume m') (hcalls : w'.calls = w.calls)
    (hparts : ∀ a ∈ m'.archives, ∀ c ∈ a.chunks,
      w'.store (pathInSnapshot volume a.raw c.filename) =
        w.store (pathInSnapshot volume a.raw c.filename))
    {snapshots : List String} {lo hi : Option String}
    (hsame : resolveTargets m'.archives snapshots lo hi =
      resolveTargets m.archives snapshots lo hi) (root : Root String C) :
    let before := outcome (restore Z T env volume snapshots lo hi) ⟨w, root, []⟩
    let after := outcome (restore Z T env volume snapshots lo hi) ⟨w', root, []⟩
    after.1 = before.1 ∧ after.2.root = before.2.root ∧ after.2.receives = before.2.receives := by
  let K := PartOfKept volume m'.archives
  let R := AgreeOn K w.store w'.store
  have hstart : SameRestoring R (⟨w, root, []⟩ : Restoring C) ⟨w', root, []⟩ := by
    refine ⟨⟨hcalls, rfl, rfl, ?_⟩, rfl, rfl⟩
    rintro key ⟨a, ha, c, hc, rfl⟩
    exact hparts a ha c hc
  have hinspect := (lockstep_onWorld (C := C) (lockstep_inspect (K := K) env hm hm')).inStep hstart
  have hrestore : InStep (SameRestoring R) Eq (restore Z T env volume snapshots lo hi)
      (restore Z T env volume snapshots lo hi) ⟨w, root, []⟩ ⟨w', root, []⟩ := by
    rw [← restoreBeside_idle]
    apply agreeOn_views.restoreBeside_inStep Z T env hinspect
    rintro dest dest' entries ⟨rfl, rfl⟩
    exact hpruned.prepare_eq hc hsame volume entries
  rcases hrestore.cases with ⟨_, _, st, st', hx, hy, -, hst⟩ | ⟨e, st, st', hx, hy, hst⟩
  · simp only [hx, hy]
    exact ⟨trivial, hst.root, hst.receives⟩
  · simp only [hx, hy]
    exact ⟨trivial, hst.root, hst.receives⟩

end Restore

/-- A chain of two, one chunk each, and a full archive that neither of them needs. -/
def branchMeta : DestMeta :=
  DestMeta.new 0 0 [⟨.plain "20230101", none, [⟨partFilename 1, 1, none, none, none⟩]⟩,
    ⟨.plain "20230102", some "20230101", [⟨partFilename 1, 1, none, none, none⟩]⟩,
    ⟨.plain "20230103", none, [⟨partFilename 1, 1, none, none, none⟩]⟩]

/-- The chain alone. -/
def prunedMeta : DestMeta :=
  DestMeta.new 0 0 [⟨.plain "20230101", none, [⟨partFilename 1, 1, none, none, none⟩]⟩,
    ⟨.plain "20230102", some "20230101", [⟨partFilename 1, 1, none, none, none⟩]⟩]

theorem branchMeta_coherent : Coherent branchMeta.archives := by
  refine ⟨⟨by decide, ?_⟩, by decide⟩
  intro a ha p hp
  have hparents : ∀ a ∈ branchMeta.archives, ∀ q ∈ a.parentTimestamp,
      q < a.raw ∧ ∃ b ∈ branchMeta.archives, b.raw = q := by decide
  exact hparents a ha p hp

theorem branchMeta_pruned : Pruned branchMeta.archives prunedMeta.archives := by
  refine ⟨by decide, by decide, ?_⟩
  intro a ha p hp
  have hparents : ∀ a ∈ prunedMeta.archives, ∀ q ∈ a.parentTimestamp,
      q ∈ raws prunedMeta.archives := by decide
  exact hparents a ha p hp

/-- The metadata with the part files of the chain, and `other` as the part file of the third
archive. -/
def branchStore (m : DestMeta) (other : Option Blob) : Store :=
  update (update (update (update (fun _ => none)
    (partKey "root" "20230101" 1)
      (some (.part (byteTransfer.sendFull "root.20230101" 7))))
    (partKey "root" "20230102" 1)
      (some (.part (byteTransfer.sendIncremental "root.20230102" 9 "root.20230101" 7))))
    (partKey "root" "20230103" 1) other) (metaKey "root") (some (.metadata m))

theorem persisted_branchStore (m : DestMeta) (other : Option Blob) :
    Persisted (World.start (branchStore m other)).store "root" m := by
  simp [Persisted, branchStore, World.start]

/-- A restore of the incremental snapshot. -/
def restoreBranch (m : DestMeta) (other : Option Blob) : Except Halt Unit × Restoring UInt8 :=
  outcome (restore .identity byteTransfer .calm "root" ["20230102"] none none)
    ⟨World.start (branchStore m other), .empty, []⟩

/-- It comes back with the third archive and its part file, and without them. -/
theorem restore_pruned_branch :
    let other := some (.part (byteTransfer.sendFull "root.20230103" 5))
    (restoreBranch prunedMeta none).1 = (restoreBranch branchMeta other).1 ∧
      (restoreBranch branchMeta other).1.isOk = true ∧
      (restoreBranch prunedMeta none).2.root.lookup "root.20230102" = some 9 ∧
      (restoreBranch prunedMeta none).2.receives.map (·.1) =
        [.receiveIncremental (.plain "20230102") (.plain "20230101"),
          .receiveFull (.plain "20230101")] := by
  intro other
  have hparts : ∀ a ∈ prunedMeta.archives, ∀ c ∈ a.chunks,
      (World.start (branchStore prunedMeta none)).store (pathInSnapshot "root" a.raw c.filename) =
        (World.start (branchStore branchMeta other)).store
          (pathInSnapshot "root" a.raw c.filename) := by
    decide +kernel
  have hsame : resolveTargets prunedMeta.archives ["20230102"] none none =
      resolveTargets branchMeta.archives ["20230102"] none none :=
    branchMeta_pruned.resolve_eq branchMeta_coherent (by decide) (by decide)
  have hpruned := restore_pruned .identity byteTransfer .calm "root" branchMeta_coherent
    branchMeta_pruned (persisted_branchStore branchMeta other)
    (persisted_branchStore prunedMeta none) rfl hparts hsame .empty
  obtain ⟨hresult, hroot, hreceives⟩ := hpruned
  have hback : (restoreBranch branchMeta other).1.isOk = true := by decide +kernel
  have hlookup : (restoreBranch branchMeta other).2.root.lookup "root.20230102" = some 9 := by
    decide +kernel
  unfold restoreBranch at *
  rw [hresult, hroot, hreceives]
  exact ⟨rfl, hback, hlookup, by decide +kernel⟩

end Bbkar
