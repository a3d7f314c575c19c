import Bbkar.Ls
import Bbkar.VisitedVolumes

/-!
# The command `ls`

Translation of `ls` with `resolve_sync_name`, over the two tables. Each visited volume gets a
line of its own, a header and its table. A printed line is given by the data in it, and the
restore root by the list of its entries.
-/
namespace Bbkar
open Codec Effects Function

inductive LsLine where
  | volume (name : String)
  | header
  | row (name state : String)
  deriving DecidableEq, Repr

/-- The world that the executor acts on, and what has been printed. -/
structure LsWorld where
  world : World
  printed : List LsLine

abbrev LsAct (α : Type) := Exec Halt LsWorld α

namespace LsAct

/-- A call of the executor. -/
def executor {α : Type} (x : Act α) : LsAct α :=
  zoom LsWorld.world (fun w d => { d with world := w }) x

def printInfo (line : LsLine) : LsAct Unit :=
  modify fun d => { d with printed := d.printed ++ [line] }

end LsAct

/-- The name is mandatory where there are several syncs, which there are not. -/
def resolveSyncName (config : Config) (name : Option String) : BR String :=
  match name, config.sync with
  | some name, none => .error (.err (syncNotFound config name))
  | some name, some sync =>
    if name = sync.name then .ok name else .error (.err (syncNotFound config name))
  | none, none => .error (.err (.config ["no sync defined in config"]))
  | none, some sync => .ok sync.name

/-- One volume, after the line that `for_each_sync` prints for it. -/
def lsVolume (env : Env) (table : VolumeContext → DestState → BR (List (String × String)))
    (ctx : VolumeContext) : LsAct Unit := do
  LsAct.printInfo (.volume ctx.volume)
  let dest ← LsAct.executor (inspectDestVolume env ctx.volume)
  let rows ← liftExcept (table ctx dest)
  LsAct.printInfo .header
  rows.forM fun row => LsAct.printInfo (.row row.1 row.2)

def ls (env : Env) (config : Config) (name : Option String)
    (restoreRoot : Option (List String)) : LsAct Unit :=
  match restoreRoot with
  | some rootEntries => do
    let resolvedName ← liftExcept (resolveSyncName config name)
    forEachSync (LsAct.executor (callInspectSource env)) config (some resolvedName) (return)
      (lsVolume env fun ctx dest => printRestoreTable ctx.volume dest rootEntries) (return)
  | none =>
    forEachSync (LsAct.executor (callInspectSource env)) config name (return)
      (lsVolume env fun ctx dest =>
        printSnapshotTable ctx.volume dest ctx.srcState.snapshots) (return)

/-! ## What it prints -/

/-- The lines of one volume. -/
def lsBlock (rows : VolumeContext → List (String × String)) (ctx : VolumeContext) :
    List LsLine :=
  .volume ctx.volume :: .header :: (rows ctx).map fun row => .row row.1 row.2

section Printed

variable {env : Env} {config : Config} {name : Option String}
  {states : List (String × SourceState)}

theorem printRows_spec (rows : List (String × String)) (w : World) (printed : List LsLine) :
    wp (rows.forM fun row => LsAct.printInfo (.row row.1 row.2))
      (fun _ d => d = ⟨w, printed ++ rows.map fun row => .row row.1 row.2⟩) (fun _ _ => False)
      ⟨w, printed⟩ := by
  induction rows generalizing printed with
  | nil => exact congrArg (LsWorld.mk w) (List.append_nil _).symm
  | cons row rows ih =>
    rw [wp_forM_cons]
    simp only [LsAct.printInfo, wp_modify]
    refine wp_mono_ok (ih _) fun _ d hd => ?_
    rw [hd, List.append_assoc]
    rfl

/-- A volume with its table, where nothing fails. -/
theorem lsVolume_spec (hfault : ∀ n, env.fault n = none)
    {table : VolumeContext → DestState → BR (List (String × String))} {ctx : VolumeContext}
    {rows : VolumeContext → List (String × String)} {d : LsWorld}
    (hread : Readable d.world.store ctx.volume)
    (htable : table ctx (destStateOn d.world.store ctx.volume) = .ok (rows ctx)) :
    wp (lsVolume env table ctx)
      (fun _ d' => d'.world.store = d.world.store ∧ d'.printed = d.printed ++ lsBlock rows ctx)
      (fun _ _ => False) d := by
  unfold lsVolume LsAct.executor
  simp only [LsAct.printInfo, wp_bind, wp_modify, wp_zoom, wp_inspectDestVolume hfault hread,
    wp_liftExcept, htable]
  refine ⟨fun r hr => ?_, fun _ he => by cases he⟩
  obtain rfl := Except.ok.inj hr
  refine wp_mono_ok (printRows_spec _ _ _) fun _ d' hd' => ?_
  rw [hd']
  exact ⟨rfl, by simp [lsBlock]⟩

/-- The restore tables of the visited volumes, one after the other. -/
theorem ls_restoreRoot_spec (hfault : ∀ n, env.fault n = none)
    (hstates : env.inspectSource = .ok states) {sync : SyncSpec} (hsync : config.sync = some sync)
    (hname : name.all (· == sync.name) = true) {w : World}
    (hread : ∀ ctx ∈ visited config name states, Readable w.store ctx.volume)
    {rootEntries : List String} {rows : VolumeContext → List (String × String)}
    (hrows : ∀ ctx, printRestoreTable ctx.volume (destStateOn w.store ctx.volume) rootEntries =
      .ok (rows ctx)) :
    wp (ls env config name (some rootEntries))
      (fun _ d => d.world.store = w.store ∧
        d.printed = (visited config name states).flatMap (lsBlock rows))
      (fun _ _ => False) ⟨w, []⟩ := by
  have hresolve : resolveSyncName config name = .ok sync.name := by
    cases name with
    | none => simp [resolveSyncName, hsync]
    | some n =>
      have hn : n = sync.name := by simpa using hname
      simp [resolveSyncName, hsync, hn]
  have hvisited : visited config (some sync.name) states = visited config name states := by
    simp [visited, hsync, hname]
  unfold ls
  simp only [wp_bind, wp_liftExcept, hresolve]
  refine ⟨fun n hn => ?_, fun _ he => by cases he⟩
  obtain rfl := Except.ok.inj hn
  rw [wp_forEachSync hsync (by simp)]
  unfold callInspectSource LsAct.executor
  simp only [wp_pure, wp_zoom, wp_bind, wp_call, hfault, hstates, wp_liftExcept, true_implies,
    reduceCtorEq, false_implies, implies_true, and_true, Except.ok.injEq, forall_eq', hvisited]
  -- the volumes printed so far, with those still to come
  have hloop := wp_forM (E := fun _ _ => False) (I := fun rest (d : LsWorld) =>
    d.world.store = w.store ∧ (∀ ctx ∈ rest, ctx ∈ visited config name states) ∧
      d.printed ++ rest.flatMap (lsBlock rows) =
        (visited config name states).flatMap (lsBlock rows))
    (f := lsVolume env fun ctx dest => printRestoreTable ctx.volume dest rootEntries)
    (visited config name states) ?_ (s := ⟨w.tick, []⟩) ⟨rfl, fun _ h => h, rfl⟩
  · refine wp_mono_ok hloop fun _ d hd => ⟨hd.1, ?_⟩
    simpa using hd.2.2
  · intro ctx rest d hd
    obtain ⟨hstore, hrest, hprinted⟩ := hd
    have htable : printRestoreTable ctx.volume (destStateOn d.world.store ctx.volume)
        rootEntries = .ok (rows ctx) := hstore ▸ hrows ctx
    refine wp_mono_ok (lsVolume_spec hfault (hstore ▸ hread ctx (hrest ctx (by simp))) htable)
      fun _ d' hd' => ?_
    refine ⟨hd'.1.trans hstore, fun c hc => hrest c (List.mem_cons_of_mem _ hc), ?_⟩
    rw [hd'.2, List.append_assoc]
    exact hprinted

end Printed

end Bbkar
