import Bbkar.RestoreRun
import Bbkar.CrashConsistency

/-!
# Restore undoes run

Every archive that a history leaves on the destination decompresses to the stream its
snapshot was sent as. A restore receives these streams, each on the content of its parent,
and ends with the content of the snapshots.
-/
namespace Bbkar
open KeySort ParentForest Codec Effects SendReceive Function

variable {C : Type}

/-! ## What archives decompress to -/

/-- The stream an archive was made from, for content fixed by volume and raw timestamp. -/
def archiveStream (T : Transfer String C Bytes) (content : String → String → C)
    (volume : String) (a : VolumeArchive) : Bytes :=
  T.stream (subvolumeName volume a.raw) (content volume a.raw)
    (a.parentTimestamp.map fun p => (subvolumeName volume p, content volume p))

/-- The files of the archive decompress to its stream. -/
def Decodes (Z : StreamCodec) (T : Transfer String C Bytes) (content : String → String → C)
    (volume : String) (a : VolumeArchive) (parts : Parts) : Prop :=
  Z.decompress (parts.map Prod.snd).flatten = some (archiveStream T content volume a)

/-- Sends that report no error deliver the whole stream of the source snapshot. -/
structure SendsContent (T : Transfer String C Bytes) (content : String → String → C)
    (env : Env) (ctx : VolumeContext) : Prop where
  full : ∀ s ∈ ctx.srcState.snapshots, ∀ n,
    Clean (env.readSubvolumeFull n (subvolumeName ctx.volume s.raw)) →
      (stdoutPieces (env.readSubvolumeFull n (subvolumeName ctx.volume s.raw))).flatten =
        T.sendFull (subvolumeName ctx.volume s.raw) (content ctx.volume s.raw)
  incremental : ∀ s ∈ ctx.srcState.snapshots, ∀ p ∈ ctx.srcState.snapshots, ∀ n,
    Clean (env.readSubvolumeIncremental n (subvolumeName ctx.volume s.raw)
      (subvolumeName ctx.volume p.raw)) →
      (stdoutPieces (env.readSubvolumeIncremental n (subvolumeName ctx.volume s.raw)
        (subvolumeName ctx.volume p.raw))).flatten =
        T.sendIncremental (subvolumeName ctx.volume s.raw) (content ctx.volume s.raw)
          (subvolumeName ctx.volume p.raw) (content ctx.volume p.raw)

section Backup

variable {H : IncrementalHash} {Z : StreamCodec} {T : Transfer String C Bytes}
  {content : String → String → C} {env : Env} {ctx : VolumeContext}

theorem SendsContent.decodes (hsends : SendsContent T content env ctx) {limit : ℕ}
    {archives : List VolumeArchive} {step : RunStep} {stream : SendStream} {parts : Parts}
    (hfits : Fits False ctx.sendPolicy ctx.srcState archives step)
    (hyields : Yields env ctx.volume step stream) (hclean : Clean stream)
    (hencodes : Encodes Z.toStreamEncoder limit stream parts) :
    Decodes Z T content ctx.volume (step.archive (parts.map Prod.fst)) parts := by
  rw [Decodes, hencodes.bytes, Z.decompress_encode, archiveStream]
  cases step with
  | sendFull snap =>
    obtain ⟨n, rfl⟩ := hyields
    rw [hsends.full snap hfits.snap_mem n hclean]
    rfl
  | sendIncremental snap p =>
    obtain ⟨n, rfl⟩ := hyields
    rw [hsends.incremental snap hfits.snap_mem p (hfits.parent p rfl).1 n hclean]
    rfl

/-- After any history the metadata is coherent, and every archive decodes. -/
theorem history_decodes (runs : List Invocation)
    (hnames : ∀ i ∈ runs, ∀ ctx, Visits i.env i.config ctx →
      SlashFree ctx.volume ∧ ∀ s ∈ ctx.srcState.snapshots, SlashFree s.raw)
    (hsrc : ∀ i ∈ runs, ∀ ctx, Visits i.env i.config ctx → ctx.srcState.Parsed)
    (hsends : ∀ i ∈ runs, ∀ ctx, Visits i.env i.config ctx →
      SendsContent T content i.env ctx) :
    AllMeta (fun _ archives => Coherent archives)
        (history H Z.toStreamEncoder runs (World.start fun _ => none)).store ∧
      Consistent H (Decodes Z T content)
        (history H Z.toStreamEncoder runs (World.start fun _ => none)).store := by
  constructor
  · refine (history_invariant (alwaysMeta_observes _) runs ?_
      ⟨by simp [AllMeta, Persisted, World.start], by simp [World.start]⟩ :
        AlwaysMeta (fun _ archives => Coherent archives) _).store
    intro i hi ctx hctx
    exact runVolume_preserves (alwaysMeta_observes _) (keepsSteps_alwaysMeta True
      (fun _ => hsrc i hi ctx hctx) ⟨.nil, by simp⟩ (fun _ _ hc => hc.toWellFormed)
      (fun m step chunks hc hfits => hc.step (hsrc i hi ctx hctx) hfits chunks))
  · refine (history_invariant safe_observes runs ?_
      ⟨consistent_empty _ _, by simp [World.start]⟩ : Safe H (Decodes Z T content) _).store
    intro i hi ctx hctx
    obtain ⟨hv, hsnaps⟩ := hnames i hi ctx hctx
    exact runVolume_preserves safe_observes (keepsSteps_safe hv hsnaps
      fun archives step stream parts hfits hyields hclean hencodes =>
        (hsends i hi ctx hctx).decodes hfits hyields hclean hencodes)

end Backup

/-! ## Receiving archives -/

/-- Every receive of an incremental stream was started on a root with the parent's content. -/
def OnParents (content : String → String → C) (volume : String)
    (receives : List (RestoreStep × Root String C)) : Prop :=
  ∀ r ∈ receives, ∀ p, r.1.parent = some p →
    r.2.lookup (subvolumeName volume p.raw) = some (content volume p.raw)

section Restore

variable {H : IncrementalHash} {Z : StreamCodec} {T : Transfer String C Bytes}
  {content : String → String → C} {env : Env} {volume : String}

/-- An archive is received as its snapshot when the root has its parent. -/
theorem restoreArchive_spec {a : VolumeArchive} {step : RestoreStep} {st : Restoring C}
    (hintact : Intact H (Decodes Z T content) st.world.store volume a)
    (hnew : st.root.lookup (subvolumeName volume a.raw) = none)
    (hparent : ∀ p, a.parentTimestamp = some p →
      st.root.lookup (subvolumeName volume p) = some (content volume p)) :
    wp (restoreArchive Z T env volume step a)
      (fun _ st' => st'.root = st.root.put (subvolumeName volume a.raw) (content volume a.raw) ∧
        st'.receives = (step, st.root) :: st.receives ∧ st'.world.store = st.world.store)
      (fun _ st' => env.Faulty ∧ st'.receives = (step, st.root) :: st.receives) st := by
  obtain ⟨parts, hchunks, hstored, hdecodes⟩ := hintact
  unfold restoreArchive onWorld
  simp only [wp_bind, wp_modify, wp_zoom, wp_call, wp_afterError, wp_get]
  refine ⟨fun _ => ?_, fun h hh => ⟨⟨_, h, hh⟩, trivial⟩⟩
  refine wp_mono (readArchive_spec (w := st.world.tick) hchunks hstored hdecodes) ?_
    (fun _ _ he => ⟨he, trivial⟩)
  rintro data w' ⟨hs, rfl⟩
  have hreceive : T.receive st.root (archiveStream T content volume a) =
      (none, st.root.put (subvolumeName volume a.raw) (content volume a.raw)) := by
    refine T.receive_stream hnew ?_
    rintro q hq
    obtain ⟨p, hp, rfl⟩ := Option.map_eq_some_iff.mp hq
    exact hparent p hp
  simp only [hreceive, wp_pure]
  exact ⟨trivial, trivial, hs⟩

/-- The steps done so far are on the root, everything else is as it was. -/
structure RestoredTo (content : String → String → C) (volume : String) (root : Root String C)
    (store : Store) (done : List RestoreStep) (received : Finset String) (st : Restoring C) :
    Prop where
  root : Root.Extends (subvolumeName volume) (content volume)
    (fun raw => raw ∈ done.map (·.snap.raw)) root st.root
  received : ∀ name ∈ received, ∃ s ∈ done, name = subvolumeName volume s.snap.raw
  receives : OnParents content volume st.receives
  store : st.world.store = store

namespace RestoredTo

variable {root : Root String C} {store : Store} {done : List RestoreStep} {step : RestoreStep}
  {received : Finset String} {st st' : Restoring C}

/-- A snapshot that no step so far was for is where it was at the start. -/
theorem lookup_eq (h : RestoredTo content volume root store done received st)
    (hfirst : ∀ s ∈ done, s.snap.raw ≠ step.snap.raw) :
    st.root.lookup (subvolumeName volume step.snap.raw) =
      root.lookup (subvolumeName volume step.snap.raw) := by
  refine h.root.other _ fun raw hmem heq => ?_
  obtain ⟨s, hs, hsraw⟩ := List.mem_map.mp hmem
  exact hfirst s hs (hsraw.trans (subvolumeName_injective volume heq).symm)

theorem received_concat (h : RestoredTo content volume root store done received st) :
    ∀ name ∈ received, ∃ s ∈ done ++ [step], name = subvolumeName volume s.snap.raw := by
  intro name hname
  obtain ⟨s, hs, rfl⟩ := h.received name hname
  exact ⟨s, by simp [hs], rfl⟩

theorem raws_concat (raw : String) : raw ∈ (done ++ [step]).map (·.snap.raw) ↔
    raw ∈ done.map (·.snap.raw) ∨ raw = step.snap.raw := by simp

/-- The snapshot of a step that is passed over is there already. -/
theorem skip (h : RestoredTo content volume root store done received st)
    (hlookup : st.root.lookup (subvolumeName volume step.snap.raw) =
      some (content volume step.snap.raw)) :
    RestoredTo content volume root store (done ++ [step]) received st :=
  ⟨(h.root.skip hlookup).congr fun raw => (raws_concat raw).symm, h.received_concat, h.receives,
    h.store⟩

theorem receive (h : RestoredTo content volume root store done received st)
    (hroot : st'.root = st.root.put (subvolumeName volume step.snap.raw)
      (content volume step.snap.raw))
    (hreceives : OnParents content volume st'.receives) (hstore : st'.world.store = store) :
    RestoredTo content volume root store (done ++ [step])
      (insert (subvolumeName volume step.snap.raw) received) st' := by
  refine ⟨?_, ?_, hreceives, hstore⟩
  · rw [hroot]
    exact (h.root.put (subvolumeName_injective volume) _).congr fun raw => (raws_concat raw).symm
  · intro name hname
    rcases Finset.mem_insert.mp hname with rfl | hname
    · exact ⟨step, by simp, rfl⟩
    · exact h.received_concat name hname

end RestoredTo

theorem restoreStep_spec {m : DestMeta} {steps done rest : List RestoreStep}
    {step : RestoreStep} {names : String → Prop} {root : Root String C} {store : Store}
    {received : Finset String} {st : Restoring C} (hc : Coherent m.archives)
    (hsteps : RestoresClosure m.archives names steps) (hsplit : steps = done ++ step :: rest)
    (hintact : ∀ a ∈ m.archives, Intact H (Decodes Z T content) store volume a)
    (hroot : ∀ a ∈ m.archives, ∀ c, root.lookup (subvolumeName volume a.raw) = some c →
      c = content volume a.raw)
    (h : RestoredTo content volume root store done received st) :
    wp (restoreStep Z T env ⟨volume, m, steps, root.entries⟩ received step)
      (fun received' st' =>
        RestoredTo content volume root store (done ++ [step]) received' st')
      (fun _ st' => env.Faulty ∧ OnParents content volume st'.receives) st := by
  obtain ⟨a, ha, hsnap, haparent, hparsed⟩ := hsteps.receives step (by rw [hsplit]; simp)
  have hraw : step.snap.raw = a.raw := by rw [← hsnap]; rfl
  -- no earlier step was for this snapshot
  have hfirst : ∀ s ∈ done, s.snap.raw ≠ step.snap.raw := by
    have hn := hsteps.nodup
    rw [hsplit, List.map_append, List.nodup_append] at hn
    exact fun s hs => hn.2.2 _ (List.mem_map_of_mem hs) _ (by simp)
  have hold := h.lookup_eq hfirst
  unfold restoreStep
  simp only
  split_ifs with hpre hrec
  · obtain ⟨c, hlookup⟩ := Root.exists_lookup hpre
    have hright := hroot a ha c (hraw ▸ hlookup)
    refine h.skip ?_
    rw [hold, hlookup, hright, hraw]
  · obtain ⟨s, hs, hname⟩ := h.received _ hrec
    exact absurd (subvolumeName_injective volume hname).symm (hfirst s hs)
  · have hfind : m.archives.find? (fun b => b.timestamp == step.snap) = some a := by
      rw [← hsnap]
      exact find?_timestamp hc.nodup ha
    have hparents : ∀ p, step.parent = some p →
        st.root.lookup (subvolumeName volume p.raw) = some (content volume p.raw) := by
      intro p hp
      obtain ⟨s, hs, rfl⟩ := hsteps.parentFirst done step rest p hsplit hp
      exact h.root.has _ (List.mem_map_of_mem hs)
    have hon : OnParents content volume ((step, st.root) :: st.receives) := by
      intro r hr p hp
      rcases List.mem_cons.mp hr with rfl | hr
      · exact hparents p hp
      · exact h.receives r hr p hp
    simp only [hfind, wp_bind, wp_liftExcept, orPanic, wp_pure]
    refine ⟨?_, by simp⟩
    rintro b hb
    obtain rfl := Except.ok.inj hb
    refine wp_mono (restoreArchive_spec (h.store ▸ hintact a ha) ?_ ?_) ?_ ?_
    · rw [← hraw, hold, Root.lookup_eq_none hpre]
    · intro q hq
      rw [haparent, Option.map_eq_some_iff] at hq
      obtain ⟨p, hp, rfl⟩ := hq
      exact hparents p hp
    · rintro _ st' ⟨hroot', hreceives', hstore'⟩
      rw [← hraw] at hroot'
      exact h.receive hroot' (hreceives' ▸ hon) (hstore'.trans h.store)
    · rintro _ st' ⟨hfaulty, hreceives'⟩
      exact ⟨hfaulty, hreceives' ▸ hon⟩

theorem inspectDestVolume_persisted {m : DestMeta} {w : World}
    (h : Persisted w.store volume m) :
    wp (inspectDestVolume env volume) (fun dest w' => dest = ⟨some m⟩ ∧ w'.store = w.store)
      (fun _ _ => env.Faulty) w := by
  unfold inspectDestVolume
  simp only [wp_bind, wp_call, wp_get, World.tick_store]
  refine ⟨fun _ => ?_, fun e he => ⟨_, e, he⟩⟩
  rw [show w.store (metaKey volume) = some (.metadata m) from h]
  simp

/-- A restore of coherent metadata whose archives decode adds the closure of the targets to
the root, and fails only where a call fails. -/
theorem restore_spec {m : DestMeta} (hc : Coherent m.archives) {w : World}
    (hm : Persisted w.store volume m)
    (hintact : ∀ a ∈ m.archives, Intact H (Decodes Z T content) w.store volume a)
    {snapshots : List String} {lo hi : Option String} {targets : List Timestamp}
    (htargets : resolveTargets m.archives snapshots lo hi = .ok targets)
    {root : Root String C}
    (hroot : ∀ a ∈ m.archives, ∀ c, root.lookup (subvolumeName volume a.raw) = some c →
      c = content volume a.raw) :
    wp (restore Z T env volume snapshots lo hi)
      (fun _ st => OnParents content volume st.receives ∧
        Root.Extends (subvolumeName volume) (content volume)
          (Closure (parentForest m.archives) (· ∈ targets.map Timestamp.raw)) root st.root)
      (fun _ st => env.Faulty ∧ OnParents content volume st.receives) ⟨w, root, []⟩ := by
  obtain ⟨steps, hprepare, hsteps⟩ := prepareRestore_of_targets hc volume root.entries htargets
  have hnone : OnParents content volume ([] : List (RestoreStep × Root String C)) := by
    simp [OnParents]
  unfold restore onWorld
  simp only [wp_bind, wp_zoom, wp_get, wp_liftExcept, wp_pure]
  refine wp_mono (inspectDestVolume_persisted hm) ?_ (fun _ _ he => ⟨he, hnone⟩)
  rintro dest w₁ ⟨rfl, hstore⟩
  refine ⟨?_, by simp [hprepare]⟩
  rintro plan hplan
  obtain rfl : (⟨volume, m, steps, root.entries⟩ : PreparedRestore) = plan := by
    simpa [hprepare] using hplan
  -- the steps done so far are on the root
  let I : List RestoreStep → Finset String → Restoring C → Prop := fun rest received st =>
    ∃ done, steps = done ++ rest ∧ RestoredTo content volume root w.store done received st
  have hloop := wp_foldlM (I := I) (E := fun _ st => env.Faulty ∧
    OnParents content volume st.receives)
    (f := restoreStep Z T env ⟨volume, m, steps, root.entries⟩) steps ∅ ?_
    (s := ⟨w₁, root, []⟩) ⟨[], rfl, (Root.Extends.refl root).congr (by simp), by simp,
      hnone, hstore⟩
  · refine wp_mono_ok hloop ?_
    rintro received st ⟨done, hdone, hrestored⟩
    obtain rfl : steps = done := by simpa using hdone
    exact ⟨hrestored.receives, hrestored.root.congr hsteps.closure⟩
  · rintro step rest received st ⟨done, hsplit, hrestored⟩
    refine wp_mono_ok (restoreStep_spec hc hsteps hsplit hintact hroot hrestored) ?_
    intro received' st' h'
    exact ⟨done ++ [step], by simp [hsplit], h'⟩

end Restore

/-- From an empty destination, whatever the runs were: a restore receives every incremental
stream on its parent and ends with the snapshots of the closure of its targets, unless a
call fails. Other entries of the root stay as they were. -/
theorem restore_undoes_run (H : IncrementalHash) (Z : StreamCodec) (T : Transfer String C Bytes)
    (content : String → String → C) (runs : List Invocation)
    (hnames : ∀ i ∈ runs, ∀ ctx, Visits i.env i.config ctx →
      SlashFree ctx.volume ∧ ∀ s ∈ ctx.srcState.snapshots, SlashFree s.raw)
    (hsrc : ∀ i ∈ runs, ∀ ctx, Visits i.env i.config ctx → ctx.srcState.Parsed)
    (hsends : ∀ i ∈ runs, ∀ ctx, Visits i.env i.config ctx → SendsContent T content i.env ctx)
    (volume : String) (hvolume : SlashFree volume) (m : DestMeta) (w : World)
    (hw : w.store = (history H Z.toStreamEncoder runs (World.start fun _ => none)).store)
    (hm : Persisted w.store volume m) (snapshots : List String) (lo hi : Option String)
    (targets : List Timestamp)
    (htargets : resolveTargets m.archives snapshots lo hi = .ok targets) (root : Root String C)
    (hroot : ∀ a ∈ m.archives, ∀ c, root.lookup (subvolumeName volume a.raw) = some c →
      c = content volume a.raw) (env : Env) :
    wp (restore Z T env volume snapshots lo hi)
      (fun _ st => OnParents content volume st.receives ∧
        (∀ t ∈ targets, st.root.lookup (subvolumeName volume t.raw) = some (content volume t.raw)) ∧
        ∀ name, (∀ a ∈ m.archives, name ≠ subvolumeName volume a.raw) →
          st.root.lookup name = root.lookup name)
      (fun _ st => env.Faulty ∧ OnParents content volume st.receives) ⟨w, root, []⟩ := by
  obtain ⟨hcoherent, hconsistent⟩ := history_decodes (H := H) (Z := Z) runs hnames hsrc hsends
  rw [← hw] at hcoherent hconsistent
  have hc := hcoherent volume m hm
  refine wp_mono_ok (restore_spec hc hm (hconsistent.intact volume m hvolume hm) htargets hroot) ?_
  rintro _ st ⟨hon, hext⟩
  refine ⟨hon, ?_, ?_⟩
  · intro t ht
    obtain ⟨a, ha, rfl⟩ := resolveTargets_archived htargets t ht
    obtain ⟨l, hl⟩ := hc.exists_lineage ha
    exact hext.has _ ⟨a.raw, List.mem_map.mpr ⟨_, ht, rfl⟩, l, hl, hl.self_mem⟩
  · intro name hname
    refine hext.other name ?_
    rintro raw ⟨t, -, l, hl, hmem⟩ rfl
    obtain ⟨k, hk, -⟩ := hl.of_mem hmem
    obtain ⟨a, ha, rfl⟩ := mem_raws.mp (parentForest_ne_none.mp hk.present)
    exact hname a ha rfl

/-! ## A concrete transfer -/

/-- Every character behind a one, and a zero at the end. -/
def nameBytes : List Char → Bytes
  | [] => [0]
  | c :: cs => 1 :: UInt8.ofNat (c.toNat / 65536) :: UInt8.ofNat (c.toNat / 256) ::
    UInt8.ofNat c.toNat :: nameBytes cs

def takeName : Bytes → List Char × Bytes
  | 1 :: a :: b :: c :: rest =>
    (Char.ofNat (a.toNat * 65536 + b.toNat * 256 + c.toNat) :: (takeName rest).1,
      (takeName rest).2)
  | _ :: rest => ([], rest)
  | [] => ([], [])

theorem takeName_nameBytes (cs : List Char) (rest : Bytes) :
    takeName (nameBytes cs ++ rest) = (cs, rest) := by
  induction cs with
  | nil => rfl
  | cons c cs ih =>
    have hlt : c.toNat < 1114112 := by
      have hvalid := c.valid
      simp only [UInt32.isValidChar, Nat.isValidChar, Char.toNat_val] at hvalid
      omega
    have hvalue : (UInt8.ofNat (c.toNat / 65536)).toNat * 65536 +
        (UInt8.ofNat (c.toNat / 256)).toNat * 256 + (UInt8.ofNat c.toNat).toNat = c.toNat := by
      simp only [UInt8.toNat_ofNat']
      omega
    simp only [nameBytes, List.cons_append, takeName, ih, hvalue, Char.ofNat_toNat]

/-- Snapshots of one byte, whose incremental streams carry the difference. -/
def byteTransfer : Transfer String UInt8 Bytes where
  sendFull := fun name c => 0 :: (nameBytes name.toList ++ [c])
  sendIncremental := fun name c parent cp =>
    1 :: (nameBytes name.toList ++ (nameBytes parent.toList ++ [c - cp]))
  receive := fun root data =>
    match data with
    | 0 :: data =>
      let (name, body) := takeName data
      match root.lookup (String.ofList name), body with
      | none, [c] => (none, root.put (String.ofList name) c)
      | _, _ => (some (1, "cannot create subvolume"), root)
    | 1 :: data =>
      let (name, body) := takeName data
      let (parent, body) := takeName body
      match root.lookup (String.ofList name), root.lookup (String.ofList parent), body with
      | none, some cp, [d] => (none, root.put (String.ofList name) (cp + d))
      | _, _, _ => (some (1, "cannot find parent subvolume"), root)
    | _ => (some (1, "unexpected data"), root)
  interrupt := id
  receive_full := by
    intro root name c h
    simp [takeName_nameBytes, h]
  receive_incremental := by
    intro root name c parent cp h hp
    simp [takeName_nameBytes, h, hp, UInt8.add_comm cp]

def byteContent (name : String) : UInt8 := if name = "root.20230101" then 7 else 9

/-- The two days with the streams of these snapshots. -/
def twoDaysSent : Invocation :=
  { twoDays none with
    env := { (twoDays none).env with
      accept := fun _ => 1000
      readSubvolumeFull := fun _ name =>
        [.ok (.stdoutBytes (byteTransfer.sendFull name (byteContent name)) 0),
          .ok (.processExit 0 "")]
      readSubvolumeIncremental := fun _ name parent =>
        [.ok (.stdoutBytes (byteTransfer.sendIncremental name (byteContent name) parent
          (byteContent parent)) 0), .ok (.processExit 0 "")] } }

/-- What they leave behind on an empty destination, the second time too. -/
def afterTwoDaysSent : World :=
  history IncrementalHash.keepAll StreamCodec.identity.toStreamEncoder [twoDaysSent, twoDaysSent]
    (World.start fun _ => none)

/-- A range from the first day on selects both days, and both come back. -/
theorem restore_undoes_run_twoDays :
    ∃ m targets st, Persisted afterTwoDaysSent.store "root" m ∧
      resolveTargets m.archives [] (some "20230101") none = .ok targets ∧
      targets = [.plain "20230101", .plain "20230102"] ∧
      outcome (restore StreamCodec.identity byteTransfer Env.calm "root" [] (some "20230101") none)
        ⟨afterTwoDaysSent, Root.empty, []⟩ = (.ok (), st) ∧
      OnParents (fun v raw => byteContent (subvolumeName v raw)) "root" st.receives ∧
      st.root.lookup "root.20230101" = some 7 ∧ st.root.lookup "root.20230102" = some 9 ∧
      ∀ name, (∀ a ∈ m.archives, name ≠ subvolumeName "root" a.raw) →
        st.root.lookup name = none := by
  have hrun : ((destStateOn afterTwoDaysSent.store "root").destMeta.bind fun m =>
      (resolveTargets m.archives [] (some "20230101") none).toOption) =
      some [.plain "20230101", .plain "20230102"] := by
    decide +kernel
  have hstore : afterTwoDaysSent.store = (history IncrementalHash.keepAll
      StreamCodec.identity.toStreamEncoder [twoDaysSent, twoDaysSent]
      (World.start fun _ => none)).store := by
    rw [afterTwoDaysSent]
  generalize afterTwoDaysSent = w at hrun hstore ⊢
  obtain ⟨m, hm, htargets⟩ := Option.bind_eq_some_iff.mp hrun
  have hresolved : resolveTargets m.archives [] (some "20230101") none =
      .ok [.plain "20230101", .plain "20230102"] := by
    cases ht : resolveTargets m.archives [] (some "20230101") none with
    | error e => simp [ht, Except.toOption] at htargets
    | ok targets => simpa [ht, Except.toOption] using htargets
  have hvisits : ∀ i ∈ [twoDaysSent, twoDaysSent], ∀ ctx, Visits i.env i.config ctx →
      i = twoDaysSent ∧ Visits (twoDays none).env (twoDays none).config ctx := by
    intro i hi ctx hctx
    obtain rfl : i = twoDaysSent := by simpa using hi
    exact ⟨rfl, ⟨hctx.visit⟩⟩
  have hnames : ∀ i ∈ [twoDaysSent, twoDaysSent], ∀ ctx, Visits i.env i.config ctx →
      SlashFree ctx.volume ∧ ∀ s ∈ ctx.srcState.snapshots, SlashFree s.raw := by
    intro i hi ctx hctx
    obtain ⟨-, hv, hsnaps, -⟩ := twoDays_visits (hvisits i hi ctx hctx).2
    exact ⟨hv, hsnaps⟩
  have hsends : ∀ i ∈ [twoDaysSent, twoDaysSent], ∀ ctx, Visits i.env i.config ctx →
      SendsContent byteTransfer (fun v raw => byteContent (subvolumeName v raw)) i.env ctx := by
    intro i hi ctx hctx
    obtain rfl := (hvisits i hi ctx hctx).1
    exact ⟨fun s _ n _ => by simp [twoDaysSent, stdoutPieces],
      fun s _ p _ n _ => by simp [twoDaysSent, stdoutPieces]⟩
  have hcalm : ¬ Env.calm.Faulty := by simp [Env.Faulty, Env.calm]
  have hrestore := restore_undoes_run IncrementalHash.keepAll StreamCodec.identity byteTransfer
    (fun v raw => byteContent (subvolumeName v raw)) [twoDaysSent, twoDaysSent] hnames
    (fun i hi ctx hctx => (twoDays_visits (hvisits i hi ctx hctx).2).1) hsends "root"
    (by decide) m w hstore (persisted_of_destMeta hm) [] (some "20230101") none
    [.plain "20230101", .plain "20230102"] hresolved Root.empty (by simp [Root.empty]) Env.calm
  obtain ⟨⟨⟩, st, hback, hon, hthere, hothers⟩ := exists_of_wp
    (wp_mono hrestore (fun _ _ h => h) fun _ _ h => (hcalm h.1).elim)
  exact ⟨m, _, st, persisted_of_destMeta hm, hresolved, rfl, hback, hon,
    hthere (.plain "20230101") (by simp), hthere (.plain "20230102") (by simp), hothers⟩

end Bbkar
