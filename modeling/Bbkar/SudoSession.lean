import Bbkar.Effects
import Bbkar.Planner

/-!
# The sudo session

Translation of `sudo.rs` and of the two calls of the executor that spawn `btrfs`. The user
id, the terminal, the clock and the answers of the commands are parameters. A session starts
with the first command and is kept, so that the rights of a later one rest on what was asked
before; what was asked, and when, is recorded.
-/
namespace Bbkar
open Effects

inductive ExecutionStrategy where
  | direct
  | sudoPasswordless
  | sudoInteractive

/-- `Duration::from_secs`, in nanoseconds. -/
def fromSecs (secs : ℕ) : ℕ := secs * 1000000000

structure SudoSession where
  lastRefresh : ℕ
  refreshInterval : ℕ
  strategy : ExecutionStrategy

/-- What the operating system is asked: `sudo -n id`, `sudo -v`, the clock, and a `btrfs`
command, with `sudo` or without. -/
inductive SudoEvent where
  | checked (success : Bool)
  | validated (success : Bool)
  | clock (time : ℕ)
  | spawned (withSudo : Bool) (args : List String)

/-- The answers, by call number. A command that cannot be started gives the text of the
error. -/
structure SudoEnv (Child : Type) where
  root : Bool
  terminal : Bool
  status : ℕ → Except String Bool
  clock : ℕ → ℕ
  spawn : ℕ → Except BbkarError Child

/-- With the events so far, newest first. -/
structure RealExecutor where
  sudoSession : Option SudoSession
  calls : ℕ
  events : List SudoEvent

namespace RealExecutor

def new : RealExecutor := ⟨none, 0, []⟩

def did (event : SudoEvent) (ex : RealExecutor) : RealExecutor :=
  { ex with calls := ex.calls + 1, events := event :: ex.events }

@[simp] theorem did_sudoSession (event : SudoEvent) (ex : RealExecutor) :
    (ex.did event).sudoSession = ex.sudoSession := rfl
@[simp] theorem did_calls (event : SudoEvent) (ex : RealExecutor) :
    (ex.did event).calls = ex.calls + 1 := rfl
@[simp] theorem did_events (event : SudoEvent) (ex : RealExecutor) :
    (ex.did event).events = event :: ex.events := rfl

end RealExecutor

abbrev SudoAct (α : Type) := Exec Halt RealExecutor α

/-- Asks, and records what was asked. -/
def perform {α : Type} (answer : ℕ → α) (event : α → SudoEvent) : SudoAct α := do
  let ex ← get
  modify (RealExecutor.did (event (answer ex.calls)))
  return answer ex.calls

@[simp] theorem wp_perform {α : Type} {answer : ℕ → α} {event : α → SudoEvent}
    {Q : α → RealExecutor → Prop} {E : Halt → RealExecutor → Prop} {ex : RealExecutor} :
    wp (perform answer event) Q E ex ↔
      Q (answer ex.calls) (ex.did (event (answer ex.calls))) := by
  simp only [perform, wp_bind, wp_get, wp_modify, wp_pure]

section Commands

variable {Child : Type} (env : SudoEnv Child)

def now : SudoAct ℕ := perform env.clock .clock

/-- `status()` of a `sudo` command. -/
def sudoStatus (event : Bool → SudoEvent) (failure : String) : SudoAct Bool := do
  let answer ← perform env.status fun answer => event (answer.toOption.getD false)
  match answer with
  | .ok success => return success
  | .error e => throw (.err (.execution (failure ++ e)))

def determineExecutionStrategy : SudoAct ExecutionStrategy :=
  if env.root then return .direct
  else do
    let success ← sudoStatus env .checked "Failed to check sudo access: "
    if success then return .sudoPasswordless
    else if env.terminal then return .sudoInteractive
    else throw (.err (.execution ("Cannot execute btrfs commands. Options:\n" ++
      "1. Run as root\n" ++ "2. Configure passwordless sudo for btrfs commands\n" ++
      "3. Run in an interactive terminal")))

def ensureSudoAuthenticated : SudoAct Unit := do
  let success ← sudoStatus env .validated "Failed to authenticate sudo: "
  if success then return
  else throw (.err (.execution "Sudo authentication failed"))

namespace SudoSession

def new : SudoAct SudoSession := do
  let strategy ← determineExecutionStrategy env
  match strategy with
  | .direct => pure ()
  | .sudoPasswordless => pure ()
  | .sudoInteractive => ensureSudoAuthenticated env
  let time ← now env
  return ⟨time, fromSecs (10 * 60), strategy⟩

def needsSudo (session : SudoSession) : Bool :=
  match session.strategy with
  | .direct => false
  | _ => true

/-- Elapsed time saturates at zero. -/
def ensureActive (session : SudoSession) : SudoAct SudoSession :=
  match session.strategy with
  | .direct => return session
  | .sudoPasswordless => return session
  | .sudoInteractive => do
    let time ← now env
    if time - session.lastRefresh > session.refreshInterval then
      let success ← sudoStatus env .validated "Failed to refresh sudo: "
      if success then
        let time ← now env
        return { session with lastRefresh := time }
      else throw (.err (.execution "Failed to refresh sudo credentials"))
    else return session

end SudoSession

/-- The session stays as it is when one cannot be started or refreshed. -/
def ensureSudo : SudoAct Unit := do
  let ex ← get
  let session ← match ex.sudoSession with
    | none => SudoSession.new env
    | some session => session.ensureActive env
  modify fun ex => { ex with sudoSession := some session }

/-- A `btrfs` command, which `sudo` runs if need be. -/
def spawnBtrfs (args : List String) : SudoAct Child := do
  ensureSudo env
  let ex ← get
  match ex.sudoSession with
  | none => throw .panic
  | some session => do
    let child ← perform env.spawn fun _ => .spawned session.needsSudo args
    match child with
    | .ok child => return child
    | .error e => throw (.err e)

def btrfsSendCommand (args : List String) : SudoAct Child := spawnBtrfs env ("send" :: args)

def btrfsReceiveCommand (root : String) : SudoAct Child := spawnBtrfs env ["receive", root]

end Commands

/-- A command of the executor. -/
inductive BtrfsCommand where
  | send (args : List String)
  | receive (root : String)

def btrfsCommand {Child : Type} (env : SudoEnv Child) : BtrfsCommand → SudoAct Child
  | .send args => btrfsSendCommand env args
  | .receive root => btrfsReceiveCommand env root

/-! ## What justifies an event -/

/-- Nothing was allowed. -/
def SudoEvent.Failed (event : SudoEvent) : Prop :=
  event = .checked false ∨ event = .validated false

/-- Nothing that takes longer than ten minutes from `time`, and nothing without `sudo`. -/
def SudoEvent.Within (time : ℕ) (event : SudoEvent) : Prop :=
  (∃ t, event = .clock t ∧ t ≤ time + fromSecs (10 * 60)) ∨ ∃ args, event = .spawned true args

/-- `sudo -v` succeeded, and since then nothing was done but spawning with `sudo` and reading
the clock, which has not shown more than ten minutes. -/
def Confirmed (earlier : List SudoEvent) : Prop :=
  ∃ recent time before, earlier = recent ++ .clock time :: .validated true :: before ∧
    ∀ event ∈ recent, event.Within time

/-- The clock shows that the last success of `sudo -v` is more than ten minutes old. -/
def Stale (earlier : List SudoEvent) : Prop :=
  ∃ t recent time before,
    earlier = .clock t :: recent ++ .clock time :: .validated true :: before ∧
      SudoEvent.validated true ∉ recent ∧ time + fromSecs (10 * 60) < t

/-- Why the executor does something, given what it did before. -/
inductive Justified {Child : Type} (env : SudoEnv Child) (earlier : List SudoEvent) :
    SudoEvent → Prop
  | clock (t : ℕ) : Justified env earlier (.clock t)
  | check (success : Bool) (hroot : env.root = false) (h : ∀ event ∈ earlier, event.Failed) :
    Justified env earlier (.checked success)
  | login (success : Bool) (hroot : env.root = false) (h : ∀ event ∈ earlier, event.Failed) :
    Justified env earlier (.validated success)
  | refresh (success : Bool) (hroot : env.root = false) (h : Stale earlier) :
    Justified env earlier (.validated success)
  | direct (args : List String) (hroot : env.root = true) :
    Justified env earlier (.spawned false args)
  | passwordless (args : List String) (hroot : env.root = false)
    (h : SudoEvent.checked true ∈ earlier) : Justified env earlier (.spawned true args)
  | confirmed (args : List String) (hroot : env.root = false) (h : Confirmed earlier) :
    Justified env earlier (.spawned true args)

def AllJustified {Child : Type} (env : SudoEnv Child) (events : List SudoEvent) : Prop :=
  ∀ later event earlier, events = later ++ event :: earlier → Justified env earlier event

/-! ## The session -/

section Session

variable {Child : Type} {env : SudoEnv Child} {session : SudoSession} {calls : ℕ}
  {events : List SudoEvent} {ex : RealExecutor}

theorem AllJustified.cons {event : SudoEvent} (h : AllJustified env events)
    (hevent : Justified env events event) : AllJustified env (event :: events) := by
  intro later other earlier hsplit
  cases later with
  | nil =>
    obtain ⟨rfl, rfl⟩ := List.cons.inj hsplit
    exact hevent
  | cons head later =>
    apply h later
    exact (List.cons.inj hsplit).2

/-- What a session rests on. An interactive one has been confirmed. Either that is still
good, or the clock has passed its time. -/
inductive SessionRests (env : SudoEnv Child) (calls : ℕ) (events : List SudoEvent) :
    SudoSession → Prop
  | direct (time interval : ℕ) (hroot : env.root = true) :
    SessionRests env calls events ⟨time, interval, .direct⟩
  | passwordless (time interval : ℕ) (hroot : env.root = false)
    (h : SudoEvent.checked true ∈ events) :
    SessionRests env calls events ⟨time, interval, .sudoPasswordless⟩
  | interactive (time : ℕ) (hroot : env.root = false) (recent before : List SudoEvent)
    (hevents : events = recent ++ .clock time :: .validated true :: before)
    (hrecent : SudoEvent.validated true ∉ recent)
    (h : (∀ event ∈ recent, event.Within time) ∨
      ∃ n < calls, time + fromSecs (10 * 60) < env.clock n) :
    SessionRests env calls events ⟨time, fromSecs (10 * 60), .sudoInteractive⟩

/-- The session allows to spawn a command now. -/
def MaySpawn (env : SudoEnv Child) (session : SudoSession) (events : List SudoEvent) : Prop :=
  ∀ args, Justified env events (.spawned session.needsSudo args)

/-- A confirmation that was just given. -/
theorem SessionRests.confirmed (hroot : env.root = false) (time : ℕ) :
    SessionRests env calls (.clock time :: .validated true :: events)
      ⟨time, fromSecs (10 * 60), .sudoInteractive⟩ ∧
    MaySpawn env ⟨time, fromSecs (10 * 60), .sudoInteractive⟩
      (.clock time :: .validated true :: events) := by
  constructor
  · apply SessionRests.interactive time hroot [] events
    · rfl
    · simp
    · exact Or.inl (by simp)
  · intro args
    exact .confirmed args hroot ⟨[], time, events, rfl, by simp⟩

theorem wp_sudoStatus {event : Bool → SudoEvent} {failure : String}
    {Q : Bool → RealExecutor → Prop} {E : Halt → RealExecutor → Prop} :
    wp (sudoStatus env event failure) Q E ex ↔
      (∀ success, env.status ex.calls = .ok success → Q success (ex.did (event success))) ∧
      ∀ e, env.status ex.calls = .error e →
        E (.err (.execution (failure ++ e))) (ex.did (event false)) := by
  unfold sudoStatus
  simp only [wp_bind, wp_perform]
  cases env.status ex.calls <;> simp [Except.toOption]

/-- A call has failed and has left the session alone. -/
structure FailedCall (env : SudoEnv Child) (ex : RealExecutor) (e : Halt) (ex' : RealExecutor) :
    Prop where
  error : ∃ err, e = .err err
  session : ex'.sudoSession = ex.sudoSession
  justified : AllJustified env ex'.events

theorem determineExecutionStrategy_spec (hjust : AllJustified env ex.events)
    (hfailed : ∀ event ∈ ex.events, event.Failed) :
    wp (determineExecutionStrategy env)
      (fun strategy ex' => ex'.sudoSession = ex.sudoSession ∧ AllJustified env ex'.events ∧
        match strategy with
        | .direct => env.root = true
        | .sudoPasswordless => env.root = false ∧ SudoEvent.checked true ∈ ex'.events
        | .sudoInteractive => env.root = false ∧ ∀ event ∈ ex'.events, event.Failed)
      (fun e ex' => FailedCall env ex e ex' ∧ ∀ event ∈ ex'.events, event.Failed) ex := by
  unfold determineExecutionStrategy
  by_cases hroot : env.root = true
  · rw [if_pos hroot]
    exact ⟨rfl, hjust, hroot⟩
  · rw [if_neg hroot, wp_bind, wp_sudoStatus]
    rw [Bool.not_eq_true] at hroot
    have hchecked (success : Bool) : AllJustified env (ex.did (.checked success)).events :=
      hjust.cons (.check success hroot hfailed)
    have hstill : ∀ event ∈ (ex.did (.checked false)).events, event.Failed := by
      intro event hevent
      rcases List.mem_cons.mp hevent with rfl | hevent
      · exact Or.inl rfl
      · exact hfailed event hevent
    constructor
    · intro success _
      cases success with
      | true => exact ⟨rfl, hchecked true, hroot, by simp⟩
      | false =>
        cases hterminal : env.terminal with
        | true => exact ⟨rfl, hchecked false, hroot, hstill⟩
        | false => exact ⟨⟨⟨_, rfl⟩, rfl, hchecked false⟩, hstill⟩
    · intro e _
      exact ⟨⟨⟨_, rfl⟩, rfl, hchecked false⟩, hstill⟩

theorem SudoSession.new_spec (hjust : AllJustified env ex.events)
    (hfailed : ∀ event ∈ ex.events, event.Failed) :
    wp (SudoSession.new env)
      (fun session ex' => ex'.sudoSession = ex.sudoSession ∧ AllJustified env ex'.events ∧
        SessionRests env ex'.calls ex'.events session ∧ MaySpawn env session ex'.events)
      (fun e ex' => FailedCall env ex e ex' ∧ ∀ event ∈ ex'.events, event.Failed) ex := by
  unfold SudoSession.new
  rw [wp_bind]
  apply wp_mono_ok (determineExecutionStrategy_spec hjust hfailed)
  rintro strategy ex' ⟨hsession, hjust', hstrategy⟩
  cases strategy with
  | direct =>
    refine ⟨hsession, hjust'.cons (.clock _), .direct _ _ hstrategy, ?_⟩
    exact fun args => .direct args hstrategy
  | sudoPasswordless =>
    obtain ⟨hroot, hchecked⟩ := hstrategy
    have hmem := List.mem_cons_of_mem (SudoEvent.clock (env.clock ex'.calls)) hchecked
    refine ⟨hsession, hjust'.cons (.clock _), .passwordless _ _ hroot hmem, ?_⟩
    exact fun args => .passwordless args hroot hmem
  | sudoInteractive =>
    obtain ⟨hroot, hfailed'⟩ := hstrategy
    have hlogin (success : Bool) : AllJustified env (ex'.did (.validated success)).events :=
      hjust'.cons (.login success hroot hfailed')
    have hstill : ∀ event ∈ (ex'.did (.validated false)).events, event.Failed := by
      intro event hevent
      rcases List.mem_cons.mp hevent with rfl | hevent
      · exact Or.inr rfl
      · exact hfailed' event hevent
    simp only [ensureSudoAuthenticated, wp_bind, wp_sudoStatus]
    constructor
    · intro success _
      cases success with
      | true =>
        exact ⟨hsession, (hlogin true).cons (.clock _), SessionRests.confirmed hroot _⟩
      | false => exact ⟨⟨⟨_, rfl⟩, hsession, hlogin false⟩, hstill⟩
    · intro e _
      exact ⟨⟨⟨_, rfl⟩, hsession, hlogin false⟩, hstill⟩

/-- An interactive session is refreshed when the clock has passed its time, and only then. A
refresh that fails leaves it past its time. -/
theorem SudoSession.ensureActive_spec (hclock : Monotone env.clock)
    (hjust : AllJustified env ex.events) (hrests : SessionRests env ex.calls ex.events session) :
    wp (session.ensureActive env)
      (fun session' ex' => ex'.sudoSession = ex.sudoSession ∧ AllJustified env ex'.events ∧
        SessionRests env ex'.calls ex'.events session' ∧ MaySpawn env session' ex'.events)
      (fun e ex' => FailedCall env ex e ex' ∧ SessionRests env ex'.calls ex'.events session)
      ex := by
  cases hrests with
  | direct time interval hroot =>
    exact ⟨rfl, hjust, .direct _ _ hroot, fun args => .direct args hroot⟩
  | passwordless time interval hroot h =>
    exact ⟨rfl, hjust, .passwordless _ _ hroot h, fun args => .passwordless args hroot h⟩
  | interactive time hroot recent before hevents hrecent h =>
    simp only [ensureActive, now, wp_bind, wp_perform]
    have hjust' : AllJustified env (.clock (env.clock ex.calls) :: ex.events) :=
      hjust.cons (.clock _)
    split_ifs with hlate
    · have hpast : time + fromSecs (10 * 60) < env.clock ex.calls := by omega
      have hstale : Stale (.clock (env.clock ex.calls) :: ex.events) :=
        ⟨_, recent, time, before, by rw [hevents]; rfl, hrecent, hpast⟩
      -- a refresh that has failed is one more reason to refresh the next time
      have hstill : SessionRests env (ex.calls + 2)
          (.validated false :: .clock (env.clock ex.calls) :: ex.events)
          ⟨time, fromSecs (10 * 60), .sudoInteractive⟩ := by
        apply SessionRests.interactive time hroot
          (.validated false :: .clock (env.clock ex.calls) :: recent) before
        · rw [hevents]
          rfl
        · simpa using hrecent
        · exact Or.inr ⟨ex.calls, by omega, hpast⟩
      rw [wp_bind, wp_sudoStatus]
      constructor
      · intro success _
        have hrefresh := hjust'.cons (.refresh success hroot hstale)
        cases success with
        | true => exact ⟨rfl, hrefresh.cons (.clock _), SessionRests.confirmed hroot _⟩
        | false => exact ⟨⟨⟨_, rfl⟩, rfl, hrefresh⟩, hstill⟩
      · intro e _
        exact ⟨⟨⟨_, rfl⟩, rfl, hjust'.cons (.refresh false hroot hstale)⟩, hstill⟩
    · have hintime : env.clock ex.calls ≤ time + fromSecs (10 * 60) := by omega
      have hwithin : ∀ event ∈ SudoEvent.clock (env.clock ex.calls) :: recent,
          event.Within time := by
        intro event hevent
        rcases List.mem_cons.mp hevent with rfl | hevent
        · exact Or.inl ⟨_, rfl, hintime⟩
        · rcases h with h | ⟨n, hn, hpast⟩
          · exact h event hevent
          · have hle := hclock hn.le
            omega
      have hsplit : (SudoEvent.clock (env.clock ex.calls) :: ex.events) =
          (.clock (env.clock ex.calls) :: recent) ++ .clock time :: .validated true :: before := by
        rw [hevents]
        rfl
      refine ⟨rfl, hjust', ?_, ?_⟩
      · apply SessionRests.interactive time hroot _ before hsplit
        · simpa using hrecent
        · exact Or.inl hwithin
      · intro args
        exact .confirmed args hroot ⟨_, time, before, hsplit, hwithin⟩

/-- What holds between commands. -/
structure SudoInvariant (env : SudoEnv Child) (ex : RealExecutor) : Prop where
  justified : AllJustified env ex.events
  fresh : ex.sudoSession = none → ∀ event ∈ ex.events, event.Failed
  rests : ∀ session, ex.sudoSession = some session →
    SessionRests env ex.calls ex.events session

theorem sudoInvariant_new (env : SudoEnv Child) : SudoInvariant env .new := by
  constructor
  · intro later event earlier h
    simp [RealExecutor.new] at h
  · simp [RealExecutor.new]
  · simp [RealExecutor.new]

theorem ensureSudo_spec (hclock : Monotone env.clock) (h : SudoInvariant env ex) :
    wp (ensureSudo env)
      (fun _ ex' => AllJustified env ex'.events ∧ ∃ session, ex'.sudoSession = some session ∧
        SessionRests env ex'.calls ex'.events session ∧ MaySpawn env session ex'.events)
      (fun e ex' => SudoInvariant env ex' ∧ ∃ err, e = .err err) ex := by
  unfold ensureSudo
  rw [wp_bind, wp_get]
  cases hsession : ex.sudoSession with
  | none =>
    rw [wp_bind]
    refine wp_mono (SudoSession.new_spec h.justified (h.fresh hsession)) ?_ ?_
    · rintro session ex' ⟨-, hjust, hrests, hmay⟩
      exact ⟨hjust, session, rfl, hrests, hmay⟩
    · rintro e ex' ⟨hfail, hfailed⟩
      refine ⟨⟨hfail.justified, fun _ => hfailed, ?_⟩, hfail.error⟩
      intro session hsome
      rw [hfail.session, hsession] at hsome
      exact nomatch hsome
  | some session =>
    rw [wp_bind]
    refine wp_mono (session.ensureActive_spec hclock h.justified (h.rests session hsession)) ?_ ?_
    · rintro session' ex' ⟨-, hjust, hrests, hmay⟩
      exact ⟨hjust, session', rfl, hrests, hmay⟩
    · rintro e ex' ⟨hfail, hrests⟩
      refine ⟨⟨hfail.justified, ?_, ?_⟩, hfail.error⟩
      · intro hnone
        rw [hfail.session, hsession] at hnone
        exact nomatch hnone
      · intro other hother
        rw [hfail.session, hsession] at hother
        rw [← Option.some.inj hother]
        exact hrests

theorem SessionRests.spawned (h : SessionRests env calls events session) (args : List String) :
    SessionRests env (calls + 1) (.spawned session.needsSudo args :: events) session := by
  cases h with
  | direct time interval hroot => exact .direct time interval hroot
  | passwordless time interval hroot h =>
    exact .passwordless time interval hroot (List.mem_cons_of_mem _ h)
  | interactive time hroot recent before hevents hrecent h =>
    apply SessionRests.interactive time hroot (.spawned true args :: recent) before
    · rw [hevents]
      rfl
    · simpa using hrecent
    · rcases h with h | ⟨n, hn, hpast⟩
      · left
        intro event hevent
        rcases List.mem_cons.mp hevent with rfl | hevent
        · exact Or.inr ⟨args, rfl⟩
        · exact h event hevent
      · exact Or.inr ⟨n, by omega, hpast⟩

theorem spawnBtrfs_spec (hclock : Monotone env.clock) (args : List String)
    (h : SudoInvariant env ex) :
    wp (spawnBtrfs env args) (fun _ ex' => SudoInvariant env ex')
      (fun e ex' => SudoInvariant env ex' ∧ ∃ err, e = .err err) ex := by
  unfold spawnBtrfs
  rw [wp_bind]
  apply wp_mono_ok (ensureSudo_spec hclock h)
  rintro _ ex' ⟨hjust, session, hsession, hrests, hmay⟩
  have hspawned : SudoInvariant env (ex'.did (.spawned session.needsSudo args)) := by
    refine ⟨hjust.cons (hmay args), ?_, ?_⟩
    · intro hnone
      rw [RealExecutor.did_sudoSession, hsession] at hnone
      exact nomatch hnone
    · intro other hother
      rw [RealExecutor.did_sudoSession, hsession] at hother
      rw [← Option.some.inj hother]
      exact hrests.spawned args
  simp only [wp_bind, wp_get, hsession, wp_perform]
  cases env.spawn ex'.calls with
  | ok child => exact hspawned
  | error e => exact ⟨hspawned, _, rfl⟩

end Session

/-- Whatever commands the executor was given before and however they ended: all that it has
done is justified. It asks `sudo` only where the user is not root; it looks for rights or
asks for a password only as long as nothing was allowed, or when more than ten minutes have
passed since the last confirmation; and it spawns with `sudo` only after `sudo` has worked
without a password, or within ten minutes of a confirmation, with no refused one since. The
next command does not panic. -/
theorem sudo_justified {Child : Type} (env : SudoEnv Child) (hclock : Monotone env.clock)
    (commands : List BtrfsCommand) :
    AllJustified env (session (commands.map (btrfsCommand env)) .new).events ∧
    ∀ command e ex', outcome (btrfsCommand env command)
      (session (commands.map (btrfsCommand env)) .new) = (.error e, ex') → ∃ err, e = .err err := by
  have hspec (command : BtrfsCommand) (ex : RealExecutor) (h : SudoInvariant env ex) :
      wp (btrfsCommand env command) (fun _ ex' => SudoInvariant env ex')
        (fun e ex' => SudoInvariant env ex' ∧ ∃ err, e = .err err) ex := by
    cases command with
    | send args => exact spawnBtrfs_spec hclock _ h
    | receive root => exact spawnBtrfs_spec hclock _ h
  have hinv : SudoInvariant env (session (commands.map (btrfsCommand env)) .new) := by
    apply session_invariant _ _ (sudoInvariant_new env)
    intro x hx
    obtain ⟨command, -, rfl⟩ := List.mem_map.mp hx
    intro ex h
    exact wp_mono (hspec command ex h) (fun _ _ h => h) (fun _ _ h => h.1)
  constructor
  · exact hinv.justified
  · intro command e ex' herror
    exact ((wp_of_error herror).mp (hspec command _ hinv)).2

/-- At a terminal, with a clock that goes on by 400 seconds at every call. -/
def slowSudo : SudoEnv Unit where
  root := false
  terminal := true
  status := fun n => .ok (decide (0 < n))
  clock := fun n => fromSecs (400 * n)
  spawn := fun _ => .ok ()

/-- The second command finds the confirmation of the first one too old. -/
example : (session ([.send ["/data.1"], .receive "/mnt"].map (btrfsCommand slowSudo)) .new).events =
    [.spawned true ["receive", "/mnt"], .clock (fromSecs 2400), .validated true,
      .clock (fromSecs 1600), .spawned true ["send", "/data.1"], .clock (fromSecs 800),
      .validated true, .checked false] := rfl

theorem sudo_justified_slowSudo :
    AllJustified slowSudo
      (session ([.send ["/data.1"], .receive "/mnt"].map (btrfsCommand slowSudo)) .new).events :=
  (sudo_justified slowSudo
    (fun _ _ h => Nat.mul_le_mul_right _ (Nat.mul_le_mul_left 400 h))
    [.send ["/data.1"], .receive "/mnt"]).1

end Bbkar
