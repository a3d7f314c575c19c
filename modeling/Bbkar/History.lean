import Bbkar.PlanRun
import Bbkar.RestoreClosure

/-!
# Metadata over whole histories

A property of archive lists that every fitting step keeps holds of all metadata that any
sequence of runs hands to the executor or leaves on the destination, wherever the runs
stop. Well-formedness and the bound on the restore chains are such properties.
-/
namespace Bbkar
open KeySort ParentForest Codec Effects Function

/-! ## Properties of all metadata -/

/-- All metadata on the store has the property, which may depend on its key. -/
def AllMeta (G : String → List VolumeArchive → Prop) (store : Store) : Prop :=
  ∀ v m, Persisted store v m → G (metaKey v) m.archives

/-- So has all metadata that was there or handed over at any time. -/
structure AlwaysMeta (G : String → List VolumeArchive → Prop) (w : World) : Prop where
  store : AllMeta G w.store
  trace : ∀ e ∈ w.trace, AllMeta G e.before ∧ AllMeta G e.after ∧
    ∀ v m returned, e.event = .writeMetadata v m returned → G (metaKey v) m.archives

section AlwaysMeta

variable {G : String → List VolumeArchive → Prop} {H : IncrementalHash} {Z : StreamEncoder}
  {env : Env} {ctx : VolumeContext} {w w₁ w' : World}

theorem AllMeta.of_differsAt {S : String → Prop} {store store' : Store} (h : AllMeta G store)
    (hd : DiffersAt S store store') : AllMeta G store' :=
  fun v m hp => h v m (hd.metadata _ m hp)

theorem alwaysMeta_observes (G : String → List VolumeArchive → Prop) :
    Observes (AlwaysMeta G) := by
  intro w w' hs ht h
  exact ⟨hs ▸ h.store, ht ▸ h.trace⟩

theorem AlwaysMeta.sending {step : RunStep} {stream : SendStream} (h : AlwaysMeta G w)
    (hs : Sending env ctx step stream w w') : AlwaysMeta G w' := by
  obtain ⟨new, htrace, hnew⟩ := hs.frame.trace
  refine ⟨h.store.of_differsAt hs.frame.store, ?_⟩
  intro e he
  rw [htrace] at he
  rcases List.mem_append.mp he with he | he
  · obtain ⟨⟨k, -, hevent⟩, hbefore, hafter⟩ := hnew e he
    exact ⟨h.store.of_differsAt hbefore, h.store.of_differsAt hafter, by simp [hevent]⟩
  · rcases List.mem_cons.mp he with rfl | he
    · exact ⟨h.store, h.store, by simp⟩
    · exact h.trace e he

theorem AlwaysMeta.metaTried {volume : String} {m : DestMeta} (h : AlwaysMeta G w)
    (hm : G (metaKey volume) m.archives) (ht : MetaTried volume m w w') : AlwaysMeta G w' := by
  have hstore : AllMeta G w'.store := by
    rcases ht.store with hs | hs
    · rw [hs]
      exact h.store
    · intro v m' hp
      rw [hs, Persisted] at hp
      by_cases hkey : metaKey v = metaKey volume
      · rw [hkey, update_self] at hp
        obtain rfl : m = m' := by simpa using hp
        rw [hkey]
        exact hm
      · rw [update_of_ne hkey] at hp
        exact h.store v m' hp
  refine ⟨hstore, ?_⟩
  obtain ⟨returned, htrace, -⟩ := ht.trace
  intro e he
  rw [htrace] at he
  rcases List.mem_cons.mp he with rfl | he
  · refine ⟨h.store, hstore, ?_⟩
    intro v m' returned' hevent
    obtain ⟨rfl, rfl, -⟩ : volume = v ∧ m = m' ∧ returned = returned' := by simpa using hevent
    exact hm
  · exact h.trace e he

/-- It is enough that a step which fits keeps the property of the archives before it. -/
theorem keepsSteps_alwaysMeta (tracked : Prop) (hsrc : tracked → ctx.srcState.Parsed)
    (hnil : G (metaKey ctx.volume) [])
    (hwf : tracked → ∀ archives, G (metaKey ctx.volume) archives → WellFormed archives)
    (hstep : ∀ (m : DestMeta) step chunks, G (metaKey ctx.volume) m.archives →
      Fits tracked ctx.sendPolicy ctx.srcState m.archives step →
      G (metaKey ctx.volume) (m.addArchive (step.archive chunks)).archives) :
    KeepsSteps tracked H Z env ctx (AlwaysMeta G) (AlwaysMeta G) := by
  have hlink : ∀ {w : World} {m : DestMeta}, AlwaysMeta G w → Link ctx.volume m w.store →
      G (metaKey ctx.volume) m.archives := by
    rintro w m hw (hp | ⟨-, hm⟩)
    · exact hw.store _ m hp
    · rw [hm]
      exact hnil
  refine .invariant (fun ht => ⟨hsrc ht, fun w m hw hl => hwf ht _ (hlink hw hl)⟩) ?_ ?_
  · exact fun m step stream w w' hw _ _ hs => hw.sending hs
  · intro m step stream chunks now w w₁ w' hw hl hfits hs ht
    have hm := hstep m step chunks (hlink hw hl) hfits
    exact (hw.sending hs.toSending).metaTried (m := m.after step chunks now) hm ht

end AlwaysMeta

/-! ## Well-formedness -/

theorem WellFormed.step {tracked : Prop} {policy : SendPolicy} {src : SourceState}
    (hsrc : src.Parsed) {m : DestMeta} (h : WellFormed m.archives) {step : RunStep}
    (hfits : Fits tracked policy src m.archives step) (chunks : List ChunkFilename) :
    WellFormed (m.addArchive (step.archive chunks)).archives := by
  refine h.addArchive hfits.fresh ?_
  intro p hp
  rw [RunStep.archive_parentTimestamp, RunStep.parentRaw_eq, Option.map_eq_some_iff] at hp
  obtain ⟨q, hq, rfl⟩ := hp
  obtain ⟨hqsrc, hlt, hmem⟩ := hfits.parent q hq
  exact ⟨((hsrc q hqsrc).lt_iff (hsrc _ hfits.snap_mem)).mp hlt, hmem⟩

/-- Every metadata handed over for a volume is well-formed when the volume starts without
metadata or with a well-formed one, whatever fails on the way. -/
theorem handed_metadata_wellFormed (H : IncrementalHash) (Z : StreamEncoder)
    (runs : List Invocation) (store : Store) (volume : String)
    (hsrc : ∀ i ∈ runs, ∀ ctx, Visits i.env i.config ctx → ctx.srcState.Parsed)
    (hstart : ∀ m, Persisted store volume m → WellFormed m.archives) :
    ∀ e ∈ (history H Z runs (World.start store)).trace, ∀ m returned,
      e.event = .writeMetadata volume m returned →
        WellFormed m.archives ∧ m.archives.Pairwise (fun a b => a.timestamp ≤ b.timestamp) ∧
          ∀ a ∈ m.archives, ∃ l, Lineage (parentForest m.archives) a.raw l := by
  let G : String → List VolumeArchive → Prop := fun key archives =>
    key = metaKey volume → WellFormed archives
  have hinv : AlwaysMeta G (history H Z runs (World.start store)) := by
    refine history_invariant (alwaysMeta_observes G) runs ?_ ⟨?_, by simp [World.start]⟩
    · intro i hi ctx hctx
      by_cases hkey : metaKey ctx.volume = metaKey volume
      · exact runVolume_preserves (alwaysMeta_observes G) (keepsSteps_alwaysMeta True
          (fun _ => hsrc i hi ctx hctx) (fun _ => .nil) (fun _ _ hg => hg hkey)
          (fun m step chunks hm hfits _ => (hm hkey).step (hsrc i hi ctx hctx) hfits chunks))
      · exact runVolume_preserves (alwaysMeta_observes G) (keepsSteps_alwaysMeta False
          False.elim (fun h => absurd h hkey) False.elim (fun _ _ _ _ _ h => absurd h hkey))
    · intro v m hp hkey
      exact hstart m (by rw [Persisted, ← hkey]; exact hp)
  intro e he m returned hevent
  have hw := (hinv.trace e he).2.2 volume m returned hevent rfl
  exact ⟨hw, m.sorted, fun a ha => hw.exists_lineage ha⟩

def twoDaysSource : SourceState :=
  ⟨Series.new "root" [.plain "20230101", .plain "20230102"]⟩

/-- One run over a volume with two snapshots, on which every call succeeds. -/
def twoDays (depth : Option ℕ) : Invocation where
  env := { Env.calm with
    inspectSource := .ok [("root", twoDaysSource)]
    readSubvolumeFull := fun _ _ => [.ok (.stdoutBytes [1] 0), .ok (.processExit 0 "")]
    readSubvolumeIncremental := fun _ _ _ =>
      [.ok (.stdoutBytes [2] 0), .ok (.processExit 0 "")] }
  config := ⟨.localDir, 1, some ⟨"daily", ["*"], ⟨⟨7⟩, depth⟩⟩⟩
  name := none

/-- The same run with a fault at one call. -/
def Invocation.failingAt (i : Invocation) (n : ℕ) : Invocation :=
  { i with env := { i.env with
      fault := fun k => if k = n then some (.err (.io "Input/output error")) else i.env.fault k } }

/-- A run that fails and the one after it go over the same volumes. -/
theorem visits_failingAt (i : Invocation) (n : ℕ) : ∀ j ∈ [i.failingAt n, i], ∀ ctx,
    Visits j.env j.config ctx → Visits i.env i.config ctx := by
  intro j hj ctx hctx
  rcases List.mem_cons.mp hj with rfl | hj
  · exact ⟨hctx.visit⟩
  · exact List.mem_singleton.mp hj ▸ hctx

theorem twoDays_volume {depth : Option ℕ} {ctx : VolumeContext}
    (h : Visits (twoDays depth).env (twoDays depth).config ctx) : ctx.volume = "root" := by
  obtain ⟨sync, states, -, hstates, hmem, -⟩ := h.visit
  obtain rfl := Except.ok.inj hstates
  exact (Prod.mk.inj (List.mem_singleton.mp hmem)).1

theorem twoDays_visits {depth : Option ℕ} {ctx : VolumeContext}
    (h : Visits (twoDays depth).env (twoDays depth).config ctx) :
    ctx.srcState.Parsed ∧ SlashFree ctx.volume ∧
      (∀ s ∈ ctx.srcState.snapshots, SlashFree s.raw) ∧
      ctx.sendPolicy.maxIncrementalDepth = depth ∧ ctx.srcState = twoDaysSource := by
  obtain ⟨sync, states, hs, hstates, hmem, -, -, -, hpolicy⟩ := h.visit
  obtain rfl := Except.ok.inj hstates
  obtain rfl := Option.some.inj hs
  obtain ⟨hv, hsrc⟩ := Prod.mk.inj (List.mem_singleton.mp hmem)
  rw [hv, hsrc, hpolicy]
  exact ⟨by decide, by decide, by decide, rfl, rfl⟩

/-- What those runs leave behind on an empty destination. -/
def afterTwoDays (runs : List (Option ℕ)) : World :=
  history IncrementalHash.keepAll StreamCodec.identity.toStreamEncoder (runs.map twoDays)
    (World.start fun _ => none)

/-- Both days are recorded, and whatever metadata was written on the way is well formed. -/
theorem handed_metadata_wellFormed_twoDays :
    raws (destStateOn (afterTwoDays [none]).store "root").archives = ["20230101", "20230102"] ∧
      ∀ e ∈ (afterTwoDays [none]).trace, ∀ m returned,
        e.event = .writeMetadata "root" m returned →
        WellFormed m.archives ∧ m.archives.Pairwise (fun a b => a.timestamp ≤ b.timestamp) ∧
          ∀ a ∈ m.archives, ∃ l, Lineage (parentForest m.archives) a.raw l := by
  refine ⟨by decide +kernel, handed_metadata_wellFormed _ _ _ _ "root" ?_ (by simp [Persisted])⟩
  intro i hi ctx hctx
  obtain rfl := List.mem_singleton.mp hi
  exact (twoDays_visits hctx).1

/-! ## The bound on restore chains -/

theorem Coherent.step {tracked : Prop} {policy : SendPolicy} {src : SourceState}
    (hsrc : src.Parsed) {m : DestMeta} (h : Coherent m.archives) {step : RunStep}
    (hfits : Fits tracked policy src m.archives step) (chunks : List ChunkFilename) :
    Coherent (m.addArchive (step.archive chunks)).archives := by
  refine ⟨h.toWellFormed.step hsrc hfits chunks, ?_⟩
  intro a ha
  rcases (DestMeta.mem_addArchive m _ a).mp ha with rfl | ha
  · exact hsrc _ hfits.snap_mem
  · exact h.parsed a ha

/-- No lineage has more than `n` archives. -/
def ChainsWithin (n : ℕ) (archives : List VolumeArchive) : Prop :=
  ∀ name l, Lineage (parentForest archives) name l → l.length ≤ n

/-- A new archive has a lineage within the bound when its parent's is below it. -/
theorem ChainsWithin.addArchive {n : ℕ} (hn : 1 ≤ n) {m : DestMeta}
    (hw : WellFormed m.archives) (h : ChainsWithin n m.archives) {a : VolumeArchive}
    (hnew : a.raw ∉ raws m.archives)
    (hw' : WellFormed (m.addArchive a).archives)
    (hparent : ∀ p l, a.parentTimestamp = some p →
      Lineage (parentForest m.archives) p l → l.length < n) :
    ChainsWithin n (m.addArchive a).archives := by
  have hk : parentForest m.archives a.raw = none := by
    by_contra hne
    exact hnew (parentForest_ne_none.mp hne)
  have hforest : parentForest (m.addArchive a).archives =
      update (parentForest m.archives) a.raw (some a.parentTimestamp) := by
    rw [← parentForest_cons]
    exact parentForest_perm hw'.nodup (m.addArchive_perm a)
  intro name l hl
  by_cases hname : name = a.raw
  · subst hname
    cases hl with
    | root _ => exact hn
    | @child _ p l hp hlp =>
      have hlt := (hw'.older _ _ hp).1
      rw [hforest] at hp hlp
      have hl' := hlp.of_update hw.older hk (fun he => absurd hlt (he ▸ lt_irrefl _))
      have := hparent p l (by simpa using hp) hl'
      rw [List.length_append, List.length_singleton]
      omega
  · rw [hforest] at hl
    exact h name l (hl.of_update hw.older hk hname)

/-- The root of a lineage comes first, everything after it has a parent. -/
theorem lineage_shape {F : Forest String} {name : String} {l : List String}
    (h : Lineage F name l) :
    ∃ r rest, l = r :: rest ∧ F r = some none ∧ ∀ x ∈ rest, ∃ p, F x = some (some p) := by
  induction h with
  | @root k h => exact ⟨k, [], rfl, h, by simp⟩
  | @child k p l h _ ih =>
    obtain ⟨r, rest, rfl, hr, hrest⟩ := ih
    refine ⟨r, rest ++ [k], rfl, hr, ?_⟩
    intro x hx
    rcases List.mem_append.mp hx with hx | hx
    · exact hrest x hx
    · rw [List.mem_singleton.mp hx]
      exact ⟨p, h⟩

theorem Receives.parentForest_eq {archives : List VolumeArchive} (hw : WellFormed archives)
    {step : RestoreStep} (h : Receives archives step) :
    parentForest archives step.snap.raw = some (step.parent.map Timestamp.raw) := by
  obtain ⟨a, ha, hsnap, hparent, -⟩ := h
  exact (parentForest_eq_some hw.nodup).mpr ⟨a, ha, by rw [← hsnap]; rfl, hparent⟩

/-- The plan of an archive is one full step and then incremental ones, as many steps as the
archive's lineage is long. -/
theorem buildRestorePlan_shape {n : ℕ} {archives : List VolumeArchive} (hc : Coherent archives)
    (h : ChainsWithin n archives) {a : VolumeArchive} (ha : a ∈ archives) :
    ∃ full incrementals, buildRestorePlan archives a.timestamp =
        .ok ⟨.receiveFull full :: incrementals⟩ ∧ incrementals.length + 1 ≤ n ∧
      ∀ step ∈ incrementals, ∃ s p, step = .receiveIncremental s p := by
  obtain ⟨⟨steps⟩, hplan, hl, hrec⟩ := buildRestorePlan_lineage hc ha
  simp only at hl hrec
  obtain ⟨r, rest, hsplit, hroot, hrest⟩ := lineage_shape hl
  have hlen := h _ _ hl
  rw [List.length_map] at hlen
  cases steps with
  | nil => simp at hsplit
  | cons first incrementals =>
    simp only [List.map_cons, List.cons.injEq] at hsplit
    obtain ⟨rfl, rfl⟩ := hsplit
    have hfirst := (hrec first (by simp)).parentForest_eq hc.toWellFormed
    rw [hroot] at hfirst
    cases first with
    | receiveIncremental s p => simp [RestoreStep.parent] at hfirst
    | receiveFull full =>
      refine ⟨full, incrementals, hplan, by simpa using hlen, ?_⟩
      intro step hstep
      obtain ⟨p, hp⟩ := hrest step.snap.raw (List.mem_map.mpr ⟨step, hstep, rfl⟩)
      have hparent := (hrec step (List.mem_cons_of_mem _ hstep)).parentForest_eq hc.toWellFormed
      rw [hp] at hparent
      cases step with
      | receiveFull s => simp [RestoreStep.parent] at hparent
      | receiveIncremental s p => exact ⟨s, p, rfl⟩

/-- With a depth limit of `n` in every run from an empty destination, every archive that is
ever persisted restores from one full and at most `n` incrementals. -/
theorem restore_chain_bounded (H : IncrementalHash) (Z : StreamEncoder)
    (runs : List Invocation) {n : ℕ} (hn : 1 ≤ n)
    (hsrc : ∀ i ∈ runs, ∀ ctx, Visits i.env i.config ctx → ctx.srcState.Parsed)
    (hdepth : ∀ i ∈ runs, ∀ ctx, Visits i.env i.config ctx →
      ctx.sendPolicy.maxIncrementalDepth = some n) :
    ∀ e ∈ (history H Z runs (World.start fun _ => none)).trace, ∀ v m,
      Persisted e.after v m → ∀ a ∈ m.archives,
        ∃ full incrementals, buildRestorePlan m.archives a.timestamp =
            .ok ⟨.receiveFull full :: incrementals⟩ ∧ incrementals.length ≤ n ∧
          ∀ step ∈ incrementals, ∃ s p, step = .receiveIncremental s p := by
  let G : String → List VolumeArchive → Prop := fun _ archives =>
    Coherent archives ∧ ChainsWithin n archives
  have hinv : AlwaysMeta G (history H Z runs (World.start fun _ => none)) := by
    refine history_invariant (alwaysMeta_observes G) runs ?_
      ⟨by simp [AllMeta, Persisted, World.start], by simp [World.start]⟩
    intro i hi ctx hctx
    have hparsed := hsrc i hi ctx hctx
    have hnil : G (metaKey ctx.volume) [] := by
      refine ⟨⟨.nil, by simp⟩, ?_⟩
      intro name l hl
      exact absurd rfl hl.present
    refine runVolume_preserves (alwaysMeta_observes G) (keepsSteps_alwaysMeta True
      (fun _ => hparsed) hnil (fun _ _ hg => hg.1.toWellFormed) ?_)
    rintro m step chunks ⟨hc, hchains⟩ hfits
    have hc' := hc.step hparsed hfits chunks
    refine ⟨hc', hchains.addArchive hn hc.toWellFormed hfits.fresh hc'.toWellFormed ?_⟩
    intro p l hp hl
    rw [RunStep.archive_parentTimestamp, RunStep.parentRaw_eq, Option.map_eq_some_iff] at hp
    obtain ⟨q, hq, rfl⟩ := hp
    exact hfits.depth trivial q n l hq (hdepth i hi ctx hctx) hl
  intro e he v m hp a ha
  obtain ⟨hc, hchains⟩ := (hinv.trace e he).2.1 v m hp
  obtain ⟨full, incrementals, hplan, hlen, hinc⟩ := buildRestorePlan_shape hc hchains ha
  exact ⟨full, incrementals, hplan, by omega, hinc⟩

/-- Two runs with a depth limit of two: the second day is an incremental archive. -/
theorem restore_chain_bounded_twoDays :
    (destStateOn (afterTwoDays [some 2, some 2]).store "root").archives.map
        VolumeArchive.isIncremental = [false, true] ∧
      ∀ e ∈ (afterTwoDays [some 2, some 2]).trace, ∀ v m,
        Persisted e.after v m → ∀ a ∈ m.archives,
          ∃ full incrementals, buildRestorePlan m.archives a.timestamp =
              .ok ⟨.receiveFull full :: incrementals⟩ ∧ incrementals.length ≤ 2 ∧
            ∀ step ∈ incrementals, ∃ s p, step = .receiveIncremental s p := by
  have hi : ∀ i ∈ [some 2, some 2].map twoDays, i = twoDays (some 2) := by simp
  refine ⟨by decide +kernel, restore_chain_bounded _ _ _ (by decide) (fun i h ctx hctx => ?_)
    (fun i h ctx hctx => ?_)⟩
  · exact (twoDays_visits (hi i h ▸ hctx)).1
  · exact (twoDays_visits (hi i h ▸ hctx)).2.2.2.1

end Bbkar
