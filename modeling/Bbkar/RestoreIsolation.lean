import Bbkar.CrashConsistency
import Bbkar.RestoreFrame
import Bbkar.RestoreRetries
import Mathlib.Data.List.GetD

/-!
# A restore while runs go on

Runs only add to what is recorded: part files of recorded archives are never written again.
So a restore may read its metadata and each of its chunks at different moments of a history,
between any two changes of the destination. It ends as it would have ended on the
destination as it was when the metadata was read.
-/
namespace Bbkar
open KeySort ParentForest Codec Effects SendReceive Function

/-! ## Moments of a history -/

/-- The stores a record of changes went through, oldest first. -/
def moments : Store → List Entry → List Store
  | store, [] => [store]
  | store, e :: earlier => moments e.before earlier ++ [store]

theorem mem_moments (store : Store) (trace : List Entry) : store ∈ moments store trace := by
  cases trace <;> simp [moments]

/-- Every moment keeps what was recorded at the moments before it. -/
theorem moments_keeps {store : Store} {trace : List Entry} (hlinked : Linked store trace)
    (h : ∀ e ∈ trace, Keeps e.before e.after) :
    (moments store trace).Pairwise Keeps ∧ ∀ s ∈ moments store trace, Keeps s store := by
  induction trace generalizing store with
  | nil => simp [moments, Keeps.refl]
  | cons e earlier ih =>
    obtain ⟨rfl, hrest⟩ := hlinked
    obtain ⟨hpairwise, hbefore⟩ := ih hrest fun e' he' => h e' (List.mem_cons_of_mem _ he')
    have hall : ∀ s ∈ moments e.before earlier, Keeps s e.after :=
      fun s hs => (hbefore s hs).trans (h e (by simp))
    constructor
    · apply List.pairwise_append.mpr
      exact ⟨hpairwise, by simp, by simpa using hall⟩
    · intro s hs
      rcases List.mem_append.mp hs with hs | hs
      · exact hall s hs
      · rw [List.mem_singleton.mp hs]
        exact Keeps.refl _

theorem moments_property {P : Store → Prop} {store : Store} {trace : List Entry}
    (hstore : P store) (h : ∀ e ∈ trace, P e.before) : ∀ s ∈ moments store trace, P s := by
  induction trace generalizing store with
  | nil => simpa [moments] using hstore
  | cons e earlier ih =>
    intro s hs
    rcases List.mem_append.mp hs with hs | hs
    · exact ih (h e (by simp)) (fun e' he' => h e' (List.mem_cons_of_mem _ he')) s hs
    · rw [List.mem_singleton.mp hs]
      exact hstore

/-- The moment after some number of changes, and in the end the last one. -/
def momentAt (w : World) (n : ℕ) : Store := (moments w.store w.trace).getD n w.store

theorem momentAt_keeps {w : World} (h : ∀ e ∈ w.trace, Keeps e.before e.after) {n k : ℕ}
    (hle : n ≤ k) : Keeps (momentAt w n) (momentAt w k) := by
  obtain ⟨hpairwise, hlast⟩ := moments_keeps w.linked h
  unfold momentAt
  by_cases hk : k < (moments w.store w.trace).length
  · rw [List.getD_eq_getElem _ _ hk, List.getD_eq_getElem _ _ (hle.trans_lt hk)]
    rcases hle.eq_or_lt with rfl | hlt
    · exact Keeps.refl _
    · exact List.pairwise_iff_getElem.mp hpairwise n k (hle.trans_lt hk) hk hlt
  · rw [List.getD_eq_default _ _ (not_lt.mp hk)]
    by_cases hn : n < (moments w.store w.trace).length
    · rw [List.getD_eq_getElem _ _ hn]
      exact hlast _ (List.getElem_mem hn)
    · rw [List.getD_eq_default _ _ (not_lt.mp hn)]
      exact Keeps.refl _

theorem momentAt_mem (w : World) (n : ℕ) : momentAt w n ∈ moments w.store w.trace := by
  unfold momentAt
  by_cases hn : n < (moments w.store w.trace).length
  · rw [List.getD_eq_getElem _ _ hn]
    exact List.getElem_mem hn
  · rw [List.getD_eq_default _ _ (not_lt.mp hn)]
    exact mem_moments _ _

/-! ## The restore -/

/-- The world with another store. What was done to the one before is of no concern. -/
def World.seeing (store : Store) (w : World) : World :=
  { World.start store with
    calls := w.calls
    sent := w.sent
    remote := w.remote
    totalBytesSent := w.totalBytesSent }

/-- The destination as it is at the next call. -/
def look (stores : ℕ → Store) : Act Unit := modify fun w => w.seeing (stores w.calls)

section Isolation

variable {C : Type} {volume : String} {stores : ℕ → Store} {w : World}

/-- On the left the destination changes, on the right it stays as it was in `w`. -/
structure BesideFrozen (w u u' : World) : Prop where
  calls : u'.calls = u.calls
  later : w.calls ≤ u.calls
  frozen : u'.store = w.store
  recorded : ∀ key, RecordedKey w.store key → u.store key = w.store key

theorem besideFrozen_views (hkeeps : ∀ n, w.calls ≤ n → Keeps w.store (stores n)) :
    Views (RecordedKey w.store) (BesideFrozen w) (look stores) (pure ()) where
  calls _ _ h := h.calls
  objects u u' h key hkey := by rw [h.frozen, h.recorded key hkey]
  tick _ _ h := ⟨congrArg (· + 1) h.calls, Nat.le_succ_of_le h.later, h.frozen, h.recorded⟩
  observe := by
    intro u u' h
    refine ⟨trivial, h.calls, h.later, h.frozen, ?_⟩
    exact fun key hkey => (hkeeps u.calls h.later).files key hkey

/-- The metadata is read at the moment at which the restore begins. -/
theorem inspect_inStep (env : Env) (hw : stores w.calls = w.store) :
    InStep (BesideFrozen w) (fun dest dest' => dest' = dest ∧ dest = destStateOn w.store volume)
      (inspectDestVolumeBeside (look stores) env volume)
      (inspectDestVolumeBeside (pure ()) env volume) w w := by
  unfold InStep Paired inspectDestVolumeBeside look inspectDestVolume
  simp only [wp_bind, wp_modify, wp_pure, wp_call, wp_get]
  have hrelated : BesideFrozen w ((w.seeing (stores w.calls)).tick) w.tick :=
    ⟨rfl, Nat.le_succ _, rfl, fun key _ => congrFun hw key⟩
  have hsee : (w.seeing (stores w.calls)).tick.store (metaKey volume) =
      w.store (metaKey volume) := congrFun hw _
  change (env.fault w.calls = none → _) ∧ ∀ e, env.fault w.calls = some e → _
  constructor
  · intro hnone
    simp only [hsee, hnone, true_implies, reduceCtorEq, false_implies, implies_true, and_true,
      World.tick_store]
    rcases hs : w.store (metaKey volume) with _ | ⟨bytes⟩ | ⟨m⟩
    · exact ⟨⟨rfl, by simp [destStateOn, hs]⟩, hrelated⟩
    · exact ⟨rfl, hrelated⟩
    · exact ⟨⟨rfl, by simp [destStateOn, hs]⟩, hrelated⟩
  · intro e he
    simp only [he, reduceCtorEq, false_implies, Option.some.injEq, true_and]
    rintro _ rfl
    exact ⟨rfl, hrelated⟩

theorem prepareRestore_destMeta {dest : DestState} {rootEntries : Finset String}
    {snapshots : List String} {lo hi : Option String} {plan : PreparedRestore}
    (h : prepareRestore volume dest rootEntries snapshots lo hi = .ok plan) :
    dest.destMeta = some plan.destMeta := by
  unfold prepareRestore at h
  split at h
  · simp at h
  split at h
  · simp at h
  split at h
  · simp at h
  · cases h
    assumption

/-- While everything recorded is kept, the restore ends as on a destination that stands
still. -/
theorem restore_frozen (Z : StreamCodec) (T : Transfer String C Bytes) (env : Env)
    (hv : SlashFree volume) (hw : stores w.calls = w.store)
    (hkeeps : ∀ n, w.calls ≤ n → Keeps w.store (stores n))
    (hparts : ∀ m, Persisted w.store volume m → ∀ a ∈ m.archives, ∀ c ∈ a.chunks,
      PartsOf volume a.raw (pathInSnapshot volume a.raw c.filename))
    (snapshots : List String) (lo hi : Option String) (root : Root String C) :
    InStep (SameRestoring (BesideFrozen w)) Eq
      (restoreBeside (look stores) Z T env volume snapshots lo hi)
      (restore Z T env volume snapshots lo hi) ⟨w, root, []⟩ ⟨w, root, []⟩ := by
  rw [← restoreBeside_idle]
  apply (besideFrozen_views hkeeps).restoreBeside_inStep Z T env
  · exact inStep_onWorld (inspect_inStep env hw) rfl rfl
  · rintro dest _ entries ⟨rfl, rfl⟩
    cases hplan : prepareRestore volume (destStateOn w.store volume) entries snapshots lo hi with
    | error e => exact Or.inr ⟨e, rfl, rfl⟩
    | ok plan =>
      have hm := persisted_of_destMeta (prepareRestore_destMeta hplan)
      refine Or.inl ⟨plan, plan, rfl, rfl, rfl, rfl, rfl, fun _ _ => rfl, ?_⟩
      intro step _ a ha c hc
      have hmem := List.mem_of_find?_eq_some ha
      rw [(prepareRestore_ok hplan).1]
      exact ⟨volume, plan.destMeta, a, hv, hm, hmem, hparts _ hm a hmem c hc⟩

end Isolation

theorem history_safe {H : IncrementalHash} {Z : StreamEncoder} (runs : List Invocation)
    {store : Store} (hstore : Consistent H FitsU32 store)
    (hnames : ∀ i ∈ runs, ∀ ctx, Visits i.env i.config ctx →
      SlashFree ctx.volume ∧ ∀ s ∈ ctx.srcState.snapshots, SlashFree s.raw)
    (hsize : ∀ i ∈ runs, i.config.maxBackupChunkSize ≤ 2048)
    (hbuffers : ∀ pieces, ∀ b ∈ Z.encode pieces, b.length ≤ 2 ^ 31) :
    Safe H FitsU32 (history H Z runs (World.start store)) := by
  refine history_invariant safe_observes runs ?_ ⟨hstore, by simp [World.start]⟩
  intro i hi ctx hctx
  obtain ⟨hv, hsnaps⟩ := hnames i hi ctx hctx
  obtain ⟨_, _, _, _, _, _, _, hmib, _⟩ := hctx.visit
  apply runVolume_preserves safe_observes (keepsSteps_safe hv hsnaps _)
  intro archives step stream parts _ _ _ hencodes
  exact hencodes.fitsU32 (hmib ▸ hsize i hi) hbuffers

/-- A restore beside a history of runs, each of which may fail at any call, reads its metadata
and every chunk at moments of the history in their order. It has the result, errors included,
the root and the receives that it would have had on the destination as it was at the first
of these moments. -/
theorem restore_isolated {C : Type} (H : IncrementalHash) (Z : StreamCodec)
    (T : Transfer String C Bytes) (runs : List Invocation) (store : Store)
    (hstore : Consistent H FitsU32 store)
    (hnames : ∀ i ∈ runs, ∀ ctx, Visits i.env i.config ctx →
      SlashFree ctx.volume ∧ ∀ s ∈ ctx.srcState.snapshots, SlashFree s.raw)
    (hsize : ∀ i ∈ runs, i.config.maxBackupChunkSize ≤ 2048)
    (hbuffers : ∀ pieces, ∀ b ∈ Z.encode pieces, b.length ≤ 2 ^ 31) (volume : String)
    (hv : SlashFree volume) (moment : ℕ → ℕ) (hmoment : Monotone moment) (env : Env)
    (snapshots : List String) (lo hi : Option String) (root : Root String C) :
    let stores := fun n =>
      momentAt (history H Z.toStreamEncoder runs (World.start store)) (moment n)
    let start : Restoring C := ⟨World.start (stores 0), root, []⟩
    let beside := outcome (restoreBeside (look stores) Z T env volume snapshots lo hi) start
    let alone := outcome (restore Z T env volume snapshots lo hi) start
    beside.1 = alone.1 ∧ beside.2.root = alone.2.root ∧
      beside.2.receives = alone.2.receives := by
  intro stores start beside alone
  have hsafe : Safe H FitsU32 (history H Z.toStreamEncoder runs (World.start store)) :=
    history_safe runs hstore hnames hsize hbuffers
  have hverified : AllVerified H (stores 0) := by
    refine (moments_property hsafe.store ?_ _ (momentAt_mem _ _)).allVerified
    exact fun e he => (hsafe.trace e he).before
  have hkeeps : ∀ n, Keeps (stores 0) (stores n) := by
    intro n
    apply momentAt_keeps
    · exact fun e he => (hsafe.trace e he).keeps
    · exact hmoment (Nat.zero_le n)
  have hparts : ∀ m, Persisted (stores 0) volume m → ∀ a ∈ m.archives, ∀ c ∈ a.chunks,
      PartsOf volume a.raw (pathInSnapshot volume a.raw c.filename) :=
    fun m hm a ha c hc => (hverified volume m hv hm a ha c hc).1
  have hsame := restore_frozen (w := World.start (stores 0)) Z T env hv rfl
    (fun n _ => hkeeps n) hparts snapshots lo hi root
  rcases hsame.cases with ⟨_, _, st, st', hx, hy, rfl, hst⟩ | ⟨e, st, st', hx, hy, hst⟩
  · simp only [beside, alone, start, hx, hy]
    exact ⟨trivial, hst.root.symm, hst.receives.symm⟩
  · simp only [beside, alone, start, hx, hy]
    exact ⟨trivial, hst.root.symm, hst.receives.symm⟩

/-- The destination while two snapshots are sent. After 80 changes the first is recorded. -/
def midRun (n : ℕ) : Store :=
  momentAt (history .keepAll StreamCodec.bytewise.toStreamEncoder [twoDaysSent]
    (World.start fun _ => none)) (80 + n)

def midStart : Restoring UInt8 := ⟨World.start (midRun 0), Root.empty, []⟩

/-- The first is restored while the second is sent. -/
def besideMidRun : Except Halt Unit × Restoring UInt8 :=
  outcome (restoreBeside (look midRun) StreamCodec.bytewise byteTransfer Env.calm "root"
    ["20230101"] none none) midStart

def aloneMidRun : Except Halt Unit × Restoring UInt8 :=
  outcome (restore StreamCodec.bytewise byteTransfer Env.calm "root" ["20230101"] none none)
    midStart

theorem restore_isolated_midRun :
    (besideMidRun.1 = aloneMidRun.1 ∧ besideMidRun.2.root = aloneMidRun.2.root ∧
      besideMidRun.2.receives = aloneMidRun.2.receives) ∧ besideMidRun.1.isOk = true := by
  have hnames : ∀ i ∈ [twoDaysSent], ∀ ctx, Visits i.env i.config ctx →
      SlashFree ctx.volume ∧ ∀ s ∈ ctx.srcState.snapshots, SlashFree s.raw := by
    intro i hi ctx hctx
    have hvisit : Visits (twoDays none).env (twoDays none).config ctx := by
      obtain rfl := List.mem_singleton.mp hi
      exact ⟨hctx.visit⟩
    obtain ⟨-, hv, hsnaps, -⟩ := twoDays_visits hvisit
    exact ⟨hv, hsnaps⟩
  have hbuffers : ∀ pieces, ∀ b ∈ StreamCodec.bytewise.toStreamEncoder.encode pieces,
      b.length ≤ 2 ^ 31 := by
    intro pieces b hb
    rw [StreamCodec.bytewise_buffers pieces b hb]
    exact Nat.one_le_two_pow
  have hsame := restore_isolated .keepAll StreamCodec.bytewise byteTransfer [twoDaysSent]
    (fun _ => none) (consistent_empty _ _) hnames (by decide) hbuffers "root" (by decide)
    (fun n => 80 + n) (fun _ _ h => Nat.add_le_add_left h 80) Env.calm ["20230101"] none none
    Root.empty
  constructor
  · unfold besideMidRun aloneMidRun midStart midRun
    dsimp only at hsame
    exact hsame
  · decide +kernel

end Bbkar
