import Bbkar.SharedRuns
import Bbkar.CrashConsistency

/-!
# Runs that share a destination

Runs may take turns on one destination in any order, as long as no two of them are in the middle
of the same volume. Then a run finds of its volume what it remembers, nothing recorded is lost
or changed, and every recorded archive has all its chunk files at every moment. Runs over
different volumes need not wait for each other at all.
-/
namespace Bbkar
open Interleaving Codec Effects Function

/-! ## What holds of the destination -/

/-- The parts make up the compressed data of a stream without errors. -/
def HoldsStream (Z : StreamEncoder) (_ : String) (_ : VolumeArchive) (parts : Parts) : Prop :=
  ∃ stream, Clean stream ∧ (parts.map Prod.snd).flatten = (Z.encode (stdoutPieces stream)).flatten

/-- Every recorded archive is complete, and metadata is well-formed. -/
structure Sound (H : IncrementalHash) (Z : StreamEncoder) (store : Store) : Prop where
  consistent : Consistent H (HoldsStream Z) store
  wellFormed : ∀ v m, SlashFree v → Persisted store v m → WellFormed m.archives

theorem sound_empty (H : IncrementalHash) (Z : StreamEncoder) : Sound H Z fun _ => none :=
  ⟨consistent_empty H _, by simp [Persisted]⟩

/-- The names that the source gives are names of files, and the snapshots are parsed. -/
structure VolumeContext.Sendable (ctx : VolumeContext) : Prop where
  volume : SlashFree ctx.volume
  snapshots : ∀ s ∈ ctx.srcState.snapshots, SlashFree s.raw
  parsed : ctx.srcState.Parsed

/-- Every snapshot of the source is archived. -/
def AllArchived (ctx : VolumeContext) (store : Store) : Prop :=
  ∀ s ∈ ctx.srcState.snapshots, ∃ m, Persisted store ctx.volume m ∧ s.raw ∈ raws m.archives

theorem AllArchived.keeps {ctx : VolumeContext} {store store' : Store}
    (h : AllArchived ctx store) (hv : SlashFree ctx.volume) (hk : Keeps store store') :
    AllArchived ctx store' := by
  intro s hs
  obtain ⟨m, hp, hmem⟩ := h s hs
  obtain ⟨m', hp', hgrown⟩ := hk.grown _ m hv hp
  exact ⟨m', hp', List.map_subset VolumeArchive.raw hgrown.archives.subset hmem⟩

/-! ## What a run relies on -/

/-- What a run remembers of its volume is what is there, and the steps are what is left of a plan
for it. -/
structure Pursues (ctx : VolumeContext) (m : DestMeta) (steps : List RunStep) (store : Store) :
    Prop where
  sendable : ctx.Sendable
  link : Link ctx.volume m store
  remaining : Remaining True ctx.sendPolicy ctx.srcState m.archives steps

/-- What a run that is at this work relies on. -/
def Work.Holds (H : IncrementalHash) (Z : StreamEncoder) (store : Store) : Work → Prop
  | planned ctx m steps => Pursues ctx m steps store
  | writing ctx m step rest _ written => Pursues ctx m (step :: rest) store ∧
    ∀ key, PartsOf ctx.volume step.snap.raw key → written key = store key
  | recording ctx m step chunks rest => Pursues ctx m (step :: rest) store ∧
    Intact H (HoldsStream Z) store ctx.volume (step.archive chunks)
  | _ => True

/-- Besides, the volumes of a run that has not stopped are still to come, or the one it is in the
middle of, or archived. -/
structure OnCourse (H : IncrementalHash) (Z : StreamEncoder) (volumes : List VolumeContext)
    (p : Store × Process) : Prop where
  todo : ∀ ctx ∈ p.2.todo, ctx ∈ volumes
  work : p.2.work.Holds H Z p.1
  visited : p.2.work ≠ .stopped → ∀ ctx ∈ volumes,
    ctx ∈ p.2.todo ∨ p.2.work.context = some ctx ∨ AllArchived ctx p.1

section Outline

variable {H : IncrementalHash} {Z : StreamEncoder} {store store' : Store} {ctx : VolumeContext}
  {m : DestMeta} {step : RunStep} {steps rest : List RunStep} {chunks : List ChunkFilename}

theorem Pursues.fits (h : Pursues ctx m (step :: rest) store) :
    Fits True ctx.sendPolicy ctx.srcState m.archives step := h.remaining.uncons.1

theorem Pursues.unlisted (h : Pursues ctx m (step :: rest) store) :
    Unlisted store ctx.volume step.snap.raw :=
  .of_link h.link h.sendable.volume (h.sendable.snapshots _ h.fits.snap_mem) h.fits.fresh

theorem Pursues.congr (h : Pursues ctx m steps store)
    (hkey : store' (metaKey ctx.volume) = store (metaKey ctx.volume)) :
    Pursues ctx m steps store' := ⟨h.sendable, h.link.congr hkey, h.remaining⟩

/-- A run relies on the keys of its volume only. -/
theorem Work.Holds.congr {work : Work} (h : work.Holds H Z store)
    (hsame : ∀ ctx, work.context = some ctx → ∀ key, KeyOf ctx.volume key →
      store' key = store key) : work.Holds H Z store' := by
  cases work with
  | idle => trivial
  | stopped => trivial
  | planned ctx m steps => exact Pursues.congr h (hsame ctx rfl _ (keyOf_metaKey _))
  | writing ctx m step rest stream written =>
    refine ⟨h.1.congr (hsame ctx rfl _ (keyOf_metaKey _)), fun key hkey => ?_⟩
    rw [hsame ctx rfl key hkey.keyOf]
    exact h.2 key hkey
  | recording ctx m step chunks rest =>
    refine ⟨h.1.congr (hsame ctx rfl _ (keyOf_metaKey _)), h.2.congr fun n => ?_⟩
    exact hsame ctx rfl _ (PartsOf.keyOf ⟨n, rfl⟩)

/-! ## What the steps keep -/

/-- A change of a part file that belongs to no recorded archive. -/
theorem Sound.parts (hs : Sound H Z store) (hu : Unlisted store ctx.volume step.snap.raw)
    {key : String} (hkey : PartsOf ctx.volume step.snap.raw key) (bytes : Option Bytes) :
    Sound H Z (update store key (bytes.map .part)) ∧
      Keeps store (update store key (bytes.map .part)) := by
  have hd := (DiffersAt.refl store).update hkey bytes
  refine ⟨⟨hu.consistent hs.consistent hd, fun v m hv hp => ?_⟩,
    hu.keeps hs.consistent (.refl store) hd⟩
  exact hs.wellFormed v m hv ((hu.persisted_iff hd hv m).mp hp)

/-- New metadata, which may have been written or not. -/
theorem Sound.metadata (hs : Sound H Z store) (hp : Pursues ctx m (step :: rest) store)
    (hi : Intact H (HoldsStream Z) store ctx.volume (step.archive chunks)) {now : ℕ}
    (hstore : store' = store ∨
      store' = update store (metaKey ctx.volume) (some (.metadata (m.after step chunks now)))) :
    Sound H Z store' ∧ Keeps store store' := by
  have hv := hp.sendable.volume
  have ht : MetaTried ctx.volume (m.after step chunks now) (World.start store)
      ((World.start store).log
        (.writeMetadata ctx.volume (m.after step chunks now) false) store') :=
    ⟨hstore, false, rfl, by simp⟩
  have hperm : (m.after step chunks now).archives.Perm (step.archive chunks :: m.archives) :=
    m.addArchive_perm _
  refine ⟨⟨ht.consistent hs.consistent hv hp.link hperm
    (hp.sendable.snapshots _ hp.fits.snap_mem) hi, ?_⟩,
    ht.keeps hs.consistent hv hp.link rfl hperm⟩
  intro v m' hv' hp'
  rcases hstore with rfl | rfl
  · exact hs.wellFormed v m' hv' hp'
  · rcases (persisted_update hv hv' _ _).mp hp' with ⟨-, rfl⟩ | ⟨-, hp'⟩
    · have hm : WellFormed m.archives := by
        rcases hp.link with hm | ⟨-, hnil⟩
        · exact hs.wellFormed _ m hv hm
        · rw [hnil]
          exact .nil
      exact hm.step hp.sendable.parsed hp.fits chunks
    · exact hs.wellFormed v m' hv' hp'

/-- What a step keeps of the volumes before the one it is in the middle of. -/
theorem OnCourse.visited_keeps {volumes : List VolumeContext} {p : Store × Process}
    (hp : OnCourse H Z volumes p) (hall : ∀ ctx ∈ volumes, ctx.Sendable)
    (hk : Keeps p.1 store') (hwork : p.2.work ≠ .stopped) :
    ∀ ctx ∈ volumes,
      ctx ∈ p.2.todo ∨ p.2.work.context = some ctx ∨ AllArchived ctx store' := by
  intro ctx hctx
  exact (hp.visited hwork ctx hctx).imp_right
    (Or.imp_right fun ha => ha.keeps (hall ctx hctx).volume hk)

/-- A step keeps the destination sound and the run on its course. -/
theorem Process.Step.keeps {volumes : List VolumeContext} {p p' : Store × Process}
    (h : Process.Step H Z p p') (hall : ∀ ctx ∈ volumes, ctx.Sendable) (hs : Sound H Z p.1)
    (hp : OnCourse H Z volumes p) :
    Sound H Z p'.1 ∧ OnCourse H Z volumes p' ∧ Keeps p.1 p'.1 := by
  have hrefl := Keeps.refl p.1
  cases h with
  | @inspectDestVolume store todo trace ctx plan m hread hplan hopen =>
    have hctx : ctx.Sendable := hall ctx (hp.todo ctx (by simp))
    have hlink : Link ctx.volume m store := by
      rcases hopen with hm | ⟨hnone, now, rfl⟩
      · exact Or.inl (persisted_of_destMeta hm)
      · exact Or.inr ⟨hread.eq_none hnone, rfl⟩
    have hremaining : Remaining True ctx.sendPolicy ctx.srcState m.archives plan.steps := by
      rw [hopen.archives_eq]
      refine .of_buildPlan hplan fun _ => ⟨hctx.parsed, ?_⟩
      rw [← hopen.archives_eq]
      rcases hlink with hm | ⟨-, hnil⟩
      · exact hs.wellFormed _ m hctx.volume hm
      · rw [hnil]
        exact .nil
    refine ⟨hs, ⟨fun c hc => hp.todo c (List.mem_cons_of_mem _ hc),
      ⟨hctx, hlink, hremaining⟩, fun _ c hc => ?_⟩, hrefl⟩
    rcases hp.visited (by simp) c hc with hc | hc | hc
    · rcases List.mem_cons.mp hc with rfl | hc
      · exact Or.inr (Or.inl rfl)
      · exact Or.inl hc
    · simp [Work.context] at hc
    · exact Or.inr (Or.inr hc)
  | @beginWrite store todo trace ctx m step rest stream =>
    exact ⟨hs, ⟨hp.todo, ⟨hp.work, fun _ _ => rfl⟩, fun _ => hp.visited (by simp)⟩, hrefl⟩
  | @writePart store written todo trace ctx m step rest stream key bytes hkey =>
    obtain ⟨hpursues, hwritten⟩ := hp.work
    obtain ⟨hs', hkeeps⟩ := hs.parts hpursues.unlisted hkey bytes
    have hmeta : metaKey ctx.volume ≠ key := by
      rintro rfl
      exact metaKey_not_part _ _ _ hkey
    have hpursues' : Pursues ctx m (step :: rest) (update store key (bytes.map Blob.part)) :=
      hpursues.congr (update_of_ne hmeta _ _)
    have hwritten' : ∀ k, PartsOf ctx.volume step.snap.raw k →
        update written key (bytes.map Blob.part) k = update store key (bytes.map Blob.part) k := by
      intro k hk
      by_cases hkk : k = key
      · rw [hkk, update_self, update_self]
      · rw [update_of_ne hkk, update_of_ne hkk]
        exact hwritten k hk
    exact ⟨hs', ⟨hp.todo, ⟨hpursues', hwritten'⟩,
      fun _ => hp.visited_keeps hall hkeeps (by simp)⟩, hkeeps⟩
  | @endWrite store written todo trace ctx m step rest stream chunks hclean hstored =>
    obtain ⟨hpursues, hwritten⟩ := hp.work
    obtain ⟨parts, hchunks, hparts, hencodes⟩ := hstored
    have hintact : Intact H (HoldsStream Z) store ctx.volume (step.archive chunks) := by
      refine ⟨parts, hchunks, ?_, stream, hclean, hencodes.bytes⟩
      exact hparts.congr fun n _ => (hwritten _ ⟨n, rfl⟩).symm
    exact ⟨hs, ⟨hp.todo, ⟨hpursues, hintact⟩, fun _ => hp.visited (by simp)⟩, hrefl⟩
  | @writeMetadata store store' todo trace ctx m step chunks rest now hstore =>
    obtain ⟨hpursues, hintact⟩ := hp.work
    obtain ⟨hs', hk⟩ := hs.metadata hpursues hintact (Or.inr hstore)
    have hlink : Link ctx.volume (m.after step chunks now) store' := by
      refine Or.inl ?_
      rw [Persisted, hstore, update_self]
    have hremaining := (hpursues.remaining.uncons.2 chunks).perm (m.addArchive_perm _).symm
    exact ⟨hs', ⟨hp.todo, ⟨hpursues.sendable, hlink, hremaining⟩,
      fun _ => hp.visited_keeps hall hk (by simp)⟩, hk⟩
  | @failMetadata store store' todo trace ctx m step chunks rest now hstore =>
    obtain ⟨hpursues, hintact⟩ := hp.work
    obtain ⟨hs', hk⟩ := hs.metadata hpursues hintact hstore
    exact ⟨hs', ⟨hp.todo, trivial, fun hne => absurd rfl hne⟩, hk⟩
  | @leave store todo trace ctx m =>
    have hpursues : Pursues ctx m [] store := hp.work
    refine ⟨hs, ⟨hp.todo, trivial, fun _ c hc => ?_⟩, hrefl⟩
    rcases hp.visited (by simp) c hc with hc | hc | hc
    · exact Or.inl hc
    · obtain rfl : ctx = c := by simpa [Work.context] using hc
      refine Or.inr (Or.inr fun s hsnap => ?_)
      have hmem := hpursues.remaining.nil_archived s hsnap
      rcases hpursues.link with hm | ⟨-, hnil⟩
      · exact ⟨m, hm, hmem⟩
      · simp [hnil, raws] at hmem
    · exact Or.inr (Or.inr hc)
  | @stop store q => exact ⟨hs, ⟨hp.todo, trivial, fun hne => absurd rfl hne⟩, hrefl⟩

/-- A step changes nothing but the volume that the run is in the middle of. -/
theorem Process.Step.frame {p p' : Store × Process} (h : Process.Step H Z p p') {key : String}
    (hkey : ∀ ctx, p.2.work.context = some ctx → ¬ KeyOf ctx.volume key) :
    p'.1 key = p.1 key := by
  have hmeta : ∀ {ctx : VolumeContext}, p.2.work.context = some ctx →
      key ≠ metaKey ctx.volume := by
    rintro ctx hctx rfl
    exact hkey ctx hctx (keyOf_metaKey _)
  cases h with
  | inspectDestVolume => rfl
  | beginWrite => rfl
  | @writePart _ _ _ _ ctx _ _ _ _ key' _ hpart =>
    have hne : key ≠ key' := by
      rintro rfl
      exact hkey ctx rfl hpart.keyOf
    exact update_of_ne hne ..
  | endWrite => rfl
  | writeMetadata _ hstore =>
    dsimp only
    rw [hstore, update_of_ne (hmeta rfl)]
  | failMetadata _ hstore =>
    dsimp only
    rcases hstore with hstore | hstore
    · rw [hstore]
    · rw [hstore, update_of_ne (hmeta rfl)]
  | leave => rfl
  | stop => rfl

end Outline

/-! ## Runs that take turns -/

section Runs

variable {ι : Type}

/-- No two runs are in the middle of one volume. -/
def Apart (s : Shared ι Store Process) : Prop :=
  ∀ i j ctx ctx', (s.place i).work.context = some ctx → (s.place j).work.context = some ctx' →
    ctx.volume = ctx'.volume → i = j

/-- No run has begun. -/
def notBegun (runs : ι → Invocation) (store : Store) : Shared ι Store Process :=
  ⟨store, fun i => (runs i).process []⟩

/-- The run has been through its volumes. -/
def Process.Ended (p : Process) : Prop := p.todo = [] ∧ p.work = .idle

theorem Work.Holds.sendable {H : IncrementalHash} {Z : StreamEncoder} {store : Store}
    {work : Work} (h : work.Holds H Z store) {ctx : VolumeContext}
    (hctx : work.context = some ctx) : ctx.Sendable := by
  cases work with
  | idle => cases hctx
  | stopped => cases hctx
  | planned c m steps => exact Option.some.inj hctx ▸ Pursues.sendable h
  | writing c m step rest stream written => exact Option.some.inj hctx ▸ Pursues.sendable h.1
  | recording c m step chunks rest => exact Option.some.inj hctx ▸ Pursues.sendable h.1

/-- The steps of a run leave alone what the others rely on, while no two runs are in the middle
of one volume. -/
theorem outline_shared (H : IncrementalHash) (Z : StreamEncoder)
    (volumes : ι → List VolumeContext) (hall : ∀ i, ∀ ctx ∈ volumes i, ctx.Sendable) :
    Outline (Process.Step H Z) Apart (Sound H Z) (fun i => OnCourse H Z (volumes i)) Keeps where
  refl := Keeps.refl
  trans := Keeps.trans
  own := fun _ i _ hs hp hstep => hstep.keeps (hall i) hs hp
  other := by
    intro s i j next hapart hne hs hi hj hstep
    have hkeeps := (hstep.keeps (hall i) hs hi).2.2
    refine ⟨hj.todo, hj.work.congr fun ctx hctx key hkey => ?_, fun hwork ctx hctx => ?_⟩
    · refine hstep.frame fun ctx' hctx' hkey' => hne ?_
      exact hapart j i ctx ctx' hctx hctx' (hkey.unique (hj.work.sendable hctx).volume
        (hi.work.sendable hctx').volume hkey')
    · exact hj.visited_keeps (hall j) hkeeps hwork ctx hctx

/-- The volumes a run visits are the ones it had to visit. -/
theorem Process.Step.volumes {H : IncrementalHash} {Z : StreamEncoder} {p p' : Store × Process}
    (h : Process.Step H Z p p') {volumes : List VolumeContext}
    (hp : ∀ ctx, ctx ∈ p.2.todo ∨ p.2.work.context = some ctx → ctx ∈ volumes) :
    ∀ ctx, ctx ∈ p'.2.todo ∨ p'.2.work.context = some ctx → ctx ∈ volumes := by
  cases h with
  | inspectDestVolume =>
    intro c hc
    rcases hc with hc | hc
    · exact hp c (Or.inl (List.mem_cons_of_mem _ hc))
    · exact hp c (Or.inl (Option.some.inj hc ▸ List.mem_cons_self))
  | beginWrite => exact hp
  | writePart => exact hp
  | endWrite => exact hp
  | writeMetadata => exact hp
  | failMetadata => exact fun c hc => hp c (Or.inl (hc.resolve_right (by simp [Work.context])))
  | leave => exact fun c hc => hp c (Or.inl (hc.resolve_right (by simp [Work.context])))
  | stop => exact fun c hc => hp c (Or.inl (hc.resolve_right (by simp [Work.context])))

variable [DecidableEq ι]

/-- Runs over different volumes are never in the middle of the same one. -/
theorem apart_of_disjoint {H : IncrementalHash} {Z : StreamEncoder} {runs : ι → Invocation}
    {store : Store}
    (hdisjoint : ∀ i j, i ≠ j → ∀ ctx ∈ (runs i).volumes, ∀ ctx' ∈ (runs j).volumes,
      ctx.volume ≠ ctx'.volume) {s : Shared ι Store Process}
    (h : Turns (Process.Step H Z) (fun _ => True) (notBegun runs store) s) : Apart s := by
  have houtline : Outline (Process.Step H Z) (fun _ : Shared ι Store Process => True)
      (fun _ => True) (fun i p => ∀ ctx, ctx ∈ p.2.todo ∨ p.2.work.context = some ctx →
        ctx ∈ (runs i).volumes) (fun _ _ => True) :=
    { refl := fun _ => trivial
      trans := fun _ _ => trivial
      own := fun _ _ _ _ hp hstep => ⟨trivial, hstep.volumes hp, trivial⟩
      other := fun _ _ _ _ _ _ _ _ hj _ => hj }
  have hvolumes := (houtline.turns h trivial trivial fun i ctx hctx =>
    hctx.resolve_right (by simp [notBegun, Invocation.process, Shared.view, Work.context])).2.2.1
  intro i j ctx ctx' hctx hctx' hsame
  by_contra hne
  exact hdisjoint i j hne ctx (hvolumes i ctx (Or.inr hctx)) ctx'
    (hvolumes j ctx' (Or.inr hctx')) hsame

/-- What runs may rely on that share a destination. `program` and `alone` say that the runs are
those of the program, and what one of them does while the others wait is an order of turns. -/
structure SafelyShared (H : IncrementalHash) (Z : StreamEncoder) (runs : ι → Invocation)
    (store : Store) : Prop where
  program : ∀ i w, wp ((runs i).run H Z)
    (fun _ w' => ArrivesAt H Z (w.store, (runs i).process w.trace) [] .idle w')
    (fun _ w' => StopsAt H Z (w.store, (runs i).process w.trace) w') w
  alone : ∀ i s w, s.view i = (w.store, (runs i).process w.trace) → wp ((runs i).run H Z)
    (fun _ w' => Turns (Process.Step H Z) (fun _ => True) s
      (s.advance i (w'.store, ⟨[], .idle, w'.trace⟩)))
    (fun _ w' => ∃ todo, Turns (Process.Step H Z) (fun _ => True) s
      (s.advance i (w'.store, ⟨todo, .stopped, w'.trace⟩))) w
  sound : ∀ s, Turns (Process.Step H Z) Apart (notBegun runs store) s → Sound H Z s.state
  kept : ∀ s s', Turns (Process.Step H Z) Apart (notBegun runs store) s →
    Turns (Process.Step H Z) Apart s s' → Keeps s.state s'.state
  archived : ∀ s, Turns (Process.Step H Z) Apart (notBegun runs store) s →
    ∀ i, (s.place i).Ended → ∀ ctx ∈ (runs i).volumes, AllArchived ctx s.state
  unhindered : (∀ i j, i ≠ j → ∀ ctx ∈ (runs i).volumes, ∀ ctx' ∈ (runs j).volumes,
    ctx.volume ≠ ctx'.volume) → ∀ s,
      Turns (Process.Step H Z) (fun _ => True) (notBegun runs store) s →
        Turns (Process.Step H Z) Apart (notBegun runs store) s

/-- Runs that take turns, no two of them in the middle of one volume, keep a sound destination
sound and everything that is recorded as it is. A run that ends has archived every snapshot.
Where no volume is visited by two runs, any order of turns is such an order. -/
theorem sharedRuns_safe (H : IncrementalHash) (Z : StreamEncoder) (runs : ι → Invocation)
    (store : Store) (hstore : Sound H Z store)
    (hnames : ∀ i, ∀ ctx ∈ (runs i).volumes, ctx.Sendable) :
    SafelyShared H Z runs store := by
  have houtline := outline_shared H Z (fun i => (runs i).volumes) hnames
  have hstart : Apart (notBegun runs store) := by
    intro i j ctx ctx' hctx
    cases hctx
  have hturns : ∀ s, Turns (Process.Step H Z) Apart (notBegun runs store) s →
      Apart s ∧ Sound H Z s.state ∧
        ∀ i, OnCourse H Z (runs i).volumes (s.view i) := by
    intro s hs
    obtain ⟨hapart, hsound, hcourse, -⟩ := houtline.turns hs hstart hstore fun i =>
      ⟨fun _ hctx => hctx, trivial, fun _ _ hctx => Or.inl hctx⟩
    exact ⟨hapart, hsound, hcourse⟩
  refine ⟨fun i w => run_steps H Z (runs i) w, fun i s w hview => ?_,
    fun s hs => (hturns s hs).2.1, ?_, ?_, ?_⟩
  · refine wp_mono (run_steps H Z (runs i) w) (fun _ w' h => ?_) fun _ w' ⟨todo, h⟩ => ⟨todo, ?_⟩
    · exact turns_alone s i (hview ▸ h)
    · exact turns_alone s i (hview ▸ h)
  · intro s s' hs hs'
    obtain ⟨hapart, hsound, hcourse⟩ := hturns s hs
    exact (houtline.turns hs' hapart hsound hcourse).2.2.2
  · intro s hs i hended ctx hctx
    obtain ⟨htodo, hidle⟩ := hended
    have hvisited := ((hturns s hs).2.2 i).visited (by simp [Shared.view, hidle]) ctx hctx
    simpa [Shared.view, htodo, hidle, Work.context] using hvisited
  · exact fun hdisjoint s hs => hs.of_kept fun t ht => apart_of_disjoint hdisjoint ht

end Runs

/-- The two days of one of two volumes. -/
def dailyOf (volume : String) : Invocation :=
  { twoDays none with
    env := { (twoDays none).env with
      inspectSource := .ok [("home", twoDaysSource), ("root", twoDaysSource)] }
    config := ⟨.localDir, 1, some ⟨"daily", [volume], ⟨⟨7⟩, none⟩⟩⟩ }

/-- One run for each volume. -/
def bothVolumes (home : Bool) : Invocation := dailyOf (if home then "home" else "root")

def dailyContext (home : Bool) : VolumeContext :=
  ⟨.localDir, 1, if home then "home" else "root", twoDaysSource, ⟨⟨7⟩, none⟩⟩

theorem bothVolumes_volumes (home : Bool) : (bothVolumes home).volumes = [dailyContext home] := by
  cases home <;> rfl

/-- A run that has planned for its volume. -/
def bothPlanned (home : Bool) : Process :=
  ⟨[], .planned (dailyContext home) (DestMeta.new 0 0 [])
    [.sendFull (.plain "20230101"), .sendIncremental (.plain "20230102") (.plain "20230101")], []⟩

theorem bothVolumes_plan (H : IncrementalHash) (Z : StreamEncoder) (home : Bool) :
    Process.Step H Z (fun _ => none, (bothVolumes home).process [])
      (fun _ => none, bothPlanned home) := by
  have hplan : buildPlan twoDaysSource ⟨none⟩ ⟨⟨7⟩, none⟩ =
      .ok ⟨[.sendFull (.plain "20230101"),
        .sendIncremental (.plain "20230102") (.plain "20230101")]⟩ := by decide +kernel
  rw [Invocation.process, bothVolumes_volumes]
  exact .inspectDestVolume (fun _ h => nomatch h) hplan (Or.inr ⟨rfl, 0, rfl⟩)

/-- Two runs that share a destination, and may be in the middle of their volumes at once. -/
theorem sharedRuns_safe_twoDays :
    let H := IncrementalHash.keepAll
    let Z := StreamCodec.bytewise.toStreamEncoder
    SafelyShared H Z bothVolumes (fun _ => none) ∧
      ∃ s, Turns (Process.Step H Z) Apart (notBegun bothVolumes fun _ => none) s ∧
        ∀ home, (s.place home).work.context.map (·.volume) =
          some (if home then "home" else "root") := by
  intro H Z
  have hsafe : SafelyShared H Z bothVolumes fun _ => none := by
    refine sharedRuns_safe H Z _ _ (sound_empty H Z) fun home ctx hctx => ?_
    rw [bothVolumes_volumes] at hctx
    obtain rfl := List.mem_singleton.mp hctx
    cases home <;> exact ⟨by decide, by decide, by decide⟩
  have hdisjoint : ∀ i j, i ≠ j → ∀ ctx ∈ (bothVolumes i).volumes,
      ∀ ctx' ∈ (bothVolumes j).volumes, ctx.volume ≠ ctx'.volume := by
    intro i j hne ctx hctx ctx' hctx'
    rw [bothVolumes_volumes] at hctx hctx'
    rw [List.mem_singleton.mp hctx, List.mem_singleton.mp hctx']
    clear hctx hctx'
    revert i j
    decide
  let s₀ := notBegun bothVolumes fun _ => none
  let s₁ := s₀.advance true (fun _ => none, bothPlanned true)
  have hfirst : Turn (Process.Step H Z) s₀ s₁ := .step true _ (bothVolumes_plan H Z true)
  have hsecond : Turn (Process.Step H Z) s₁
      (s₁.advance false (fun _ => none, bothPlanned false)) :=
    .step false _ (bothVolumes_plan H Z false)
  have hturns : Turns (Process.Step H Z) (fun _ => True) s₀
      (s₁.advance false (fun _ => none, bothPlanned false)) :=
    .tail (.single ⟨hfirst, trivial⟩) ⟨hsecond, trivial⟩
  refine ⟨hsafe, s₁.advance false (fun _ => none, bothPlanned false),
    hsafe.unhindered hdisjoint _ hturns, fun home => ?_⟩
  cases home <;> rfl

end Bbkar
