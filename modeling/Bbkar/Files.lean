import Mathlib.Logic.Function.Basic
import Mathlib.Data.List.Basic
import Mathlib.Data.Nat.Notation

/-!
# Files, names and replacement by renaming

A directory maps names to numbered files, and a file that is open is known by its number.
Writers replace files by filling a temporary one and renaming it. While no two writers have
the same temporary name open, all other names behave like registers: a renaming puts the
whole text of its writer there, and nothing else changes anything.
-/
namespace Bbkar.Files
open Function

/-! ## File systems -/

/-- Names lead to files that exist. -/
def Exist (fresh : ℕ) (entry : String → Option ℕ) : Prop :=
  ∀ name n, entry name = some n → n < fresh

/-- No two names lead to the same file. -/
def Single (entry : String → Option ℕ) : Prop :=
  ∀ name name' n, entry name = some n → entry name' = some n → name = name'

section Entries

variable {entry : String → Option ℕ} {fresh n : ℕ} (name : String)

theorem Exist.put (h : Exist fresh entry) {fresh' : ℕ} (hle : fresh ≤ fresh') (hn : n < fresh') :
    Exist fresh' (update entry name (some n)) := by
  intro x k hk
  by_cases hx : x = name
  · rw [hx, update_self] at hk
    exact Option.some.inj hk ▸ hn
  · rw [update_of_ne hx] at hk
    exact Nat.lt_of_lt_of_le (h x k hk) hle

theorem Exist.remove (h : Exist fresh entry) : Exist fresh (update entry name none) := by
  intro x k hk
  by_cases hx : x = name
  · simp [hx] at hk
  · rw [update_of_ne hx] at hk
    exact h x k hk

theorem Single.put (h : Single entry) (hn : ∀ x, entry x ≠ some n) :
    Single (update entry name (some n)) := by
  intro x y k hx hy
  by_cases hxn : x = name <;> by_cases hyn : y = name
  · rw [hxn, hyn]
  · rw [hxn, update_self] at hx
    rw [update_of_ne hyn, ← hx] at hy
    exact absurd hy (hn y)
  · rw [hyn, update_self] at hy
    rw [update_of_ne hxn, ← hy] at hx
    exact absurd hx (hn x)
  · rw [update_of_ne hxn] at hx
    rw [update_of_ne hyn] at hy
    exact h x y k hx hy

theorem Single.remove (h : Single entry) : Single (update entry name none) := by
  intro x y k hx hy
  by_cases hxn : x = name
  · simp [hxn] at hx
  by_cases hyn : y = name
  · simp [hyn] at hy
  rw [update_of_ne hxn] at hx
  rw [update_of_ne hyn] at hy
  exact h x y k hx hy

/-- The number of a removed name is free. -/
theorem Single.removed (h : Single entry) (hn : entry name = some n) (x : String) :
    update entry name none x ≠ some n := by
  intro hx
  by_cases hxn : x = name
  · simp [hxn] at hx
  · rw [update_of_ne hxn] at hx
    exact hxn (h x name n hx hn)

end Entries

structure FileSystem (α : Type) where
  entry : String → Option ℕ
  content : ℕ → List α
  fresh : ℕ
  exist : Exist fresh entry
  single : Single entry

/-- Writing at an offset. Past the end the gap is filled. -/
def overwrite {α : Type} [Inhabited α] (old : List α) (offset : ℕ) (data : List α) : List α :=
  old.take offset ++ List.replicate (offset - old.length) default ++ data ++
    old.drop (offset + data.length)

theorem overwrite_end {α : Type} [Inhabited α] (old data : List α) :
    overwrite old old.length data = old ++ data := by
  simp [overwrite]

namespace FileSystem

variable {α : Type}

def read (fs : FileSystem α) (name : String) : Option (List α) := (fs.entry name).map fs.content

/-- A new file with this name. -/
def add (fs : FileSystem α) (name : String) : FileSystem α where
  entry := update fs.entry name (some fs.fresh)
  content := update fs.content fs.fresh []
  fresh := fs.fresh + 1
  exist := fs.exist.put name (Nat.le_succ _) (Nat.lt_succ_self _)
  single := fs.single.put name fun x hx => Nat.lt_irrefl _ (fs.exist x _ hx)

/-- Opens a file for writing, emptied if it is there and new if it is not. -/
def create (fs : FileSystem α) (name : String) : FileSystem α × ℕ :=
  match fs.entry name with
  | some n => ({ fs with content := update fs.content n [] }, n)
  | none => (fs.add name, fs.fresh)

def write [Inhabited α] (fs : FileSystem α) (n offset : ℕ) (data : List α) : FileSystem α :=
  { fs with content := update fs.content n (overwrite (fs.content n) offset data) }

/-- The file gets another name, which leads nowhere else any more. -/
def move (fs : FileSystem α) (source target : String) (n : ℕ) (h : fs.entry source = some n) :
    FileSystem α where
  entry := update (update fs.entry source none) target (some n)
  content := fs.content
  fresh := fs.fresh
  exist := (fs.exist.remove source).put target (Nat.le_refl _) (fs.exist source n h)
  single := (fs.single.remove source).put target (fs.single.removed source h)

/-- There is nothing to rename without a file of that name. -/
def rename (fs : FileSystem α) (source target : String) : Option (FileSystem α) :=
  match h : fs.entry source with
  | some n => some (fs.move source target n h)
  | none => none

/-! ## What names lead to -/

@[simp] theorem entry_create_self (fs : FileSystem α) (name : String) :
    (fs.create name).1.entry name = some (fs.create name).2 := by
  unfold create
  cases h : fs.entry name with
  | some n => exact h
  | none => simp [add]

@[simp] theorem content_create_self (fs : FileSystem α) (name : String) :
    (fs.create name).1.content (fs.create name).2 = [] := by
  unfold create
  cases fs.entry name with
  | some n => simp
  | none => simp [add]

theorem read_create_of_ne (fs : FileSystem α) {name other : String} (h : other ≠ name) :
    (fs.create name).1.read other = fs.read other := by
  unfold create read
  cases hn : fs.entry name with
  | some n =>
    refine Option.map_congr fun k hk => update_of_ne ?_ _ _
    rintro rfl
    exact h (fs.single other name k hk hn)
  | none =>
    simp only [add, update_of_ne h]
    refine Option.map_congr fun k hk => update_of_ne ?_ _ _
    exact Nat.ne_of_lt (fs.exist other k hk)

theorem entry_create_of_ne (fs : FileSystem α) {name other : String} (h : other ≠ name) :
    (fs.create name).1.entry other = fs.entry other := by
  unfold create
  cases fs.entry name with
  | some n => rfl
  | none => exact update_of_ne h _ _

theorem content_create_of_ne (fs : FileSystem α) {name other : String} {n : ℕ} (h : other ≠ name)
    (hn : fs.entry other = some n) : (fs.create name).1.content n = fs.content n := by
  have hread := fs.read_create_of_ne h
  rw [read, read, entry_create_of_ne fs h, hn] at hread
  exact Option.some.inj hread

theorem fresh_le_create (fs : FileSystem α) (name : String) :
    fs.fresh ≤ (fs.create name).1.fresh := by
  unfold create
  cases fs.entry name with
  | some n => exact Nat.le_refl _
  | none => exact Nat.le_succ _

/-- A file that has not got the name is neither opened nor emptied. -/
theorem create_other (fs : FileSystem α) {name : String} {n : ℕ} (hn : n < fs.fresh)
    (h : fs.entry name ≠ some n) :
    (fs.create name).2 ≠ n ∧ (fs.create name).1.content n = fs.content n := by
  unfold create
  cases hk : fs.entry name with
  | some k =>
    have hkn : k ≠ n := fun he => h (he ▸ hk)
    exact ⟨hkn, update_of_ne hkn.symm _ _⟩
  | none =>
    have hne : fs.fresh ≠ n := (Nat.ne_of_lt hn).symm
    exact ⟨hne, update_of_ne hne.symm _ _⟩

theorem rename_eq {fs fs' : FileSystem α} {source target : String}
    (h : fs.rename source target = some fs') :
    ∃ n, fs.entry source = some n ∧ fs'.content = fs.content ∧ fs'.fresh = fs.fresh ∧
      fs'.entry = update (update fs.entry source none) target (some n) := by
  unfold rename at h
  split at h
  · next n hn =>
    obtain rfl := Option.some.inj h
    exact ⟨n, hn, rfl, rfl, rfl⟩
  · cases h

variable [Inhabited α]

@[simp] theorem entry_write (fs : FileSystem α) (n offset : ℕ) (data : List α) :
    (fs.write n offset data).entry = fs.entry := rfl

@[simp] theorem content_write_self (fs : FileSystem α) (n offset : ℕ) (data : List α) :
    (fs.write n offset data).content n = overwrite (fs.content n) offset data := update_self ..

theorem content_write_of_ne (fs : FileSystem α) {n k : ℕ} (h : k ≠ n) (offset : ℕ)
    (data : List α) : (fs.write n offset data).content k = fs.content k := update_of_ne h ..

theorem read_write_of_ne (fs : FileSystem α) {name other : String} {n : ℕ}
    (hn : fs.entry name = some n) (h : other ≠ name) (offset : ℕ) (data : List α) :
    (fs.write n offset data).read other = fs.read other := by
  refine Option.map_congr fun k hk => content_write_of_ne fs ?_ offset data
  rintro rfl
  exact h (fs.single other name k hk hn)

end FileSystem

/-! ## Replacing files by renaming -/

/-- A writer with the text it writes, its temporary name and the name it replaces. -/
structure Writer (α : Type) where
  temp : String
  target : String
  data : List α

inductive Stage (α : Type) where
  | waiting
  | writing (n : ℕ) (done : List α)
  | renamed
  | stopped

inductive Action (α : Type) where
  | create
  | write (piece : List α)
  | rename
  | stop

/-- Several writers at work on the same files. -/
structure Replacing (ι α : Type) where
  files : FileSystem α
  stage : ι → Stage α

section Protocol

variable {ι α : Type} {writer : ι → Writer α} {s s' : Replacing ι α} {renamed : List ι}

/-- The writer has its temporary file open. -/
def Replacing.Open (s : Replacing ι α) (i : ι) : Prop := ∃ n done, s.stage i = .writing n done

/-- An open temporary file holds what its only writer has written. -/
structure Filling (writer : ι → Writer α) (s : Replacing ι α) : Prop where
  opened : ∀ i n done, s.stage i = .writing n done →
    s.files.entry (writer i).temp = some n ∧ s.files.content n = done
  alone : ∀ i j, s.Open i → s.Open j → (writer i).temp = (writer j).temp → i = j

theorem Filling.of_idle (h : ∀ i, ¬ s.Open i) : Filling writer s :=
  ⟨fun i n done hi => absurd ⟨n, done, hi⟩ (h i), fun i _ hi => absurd hi (h i)⟩

theorem Filling.temp_ne (h : Filling writer s) {i j : ι} (hi : s.Open i) (hj : s.Open j)
    (hne : j ≠ i) : (writer j).temp ≠ (writer i).temp :=
  fun he => hne (h.alone j i hj hi he)

/-- What a renaming leaves under a name that is not temporary. -/
theorem read_rename {i : ι} {n : ℕ} {files : FileSystem α} {done : List α}
    (h : Filling writer s) (hi : s.stage i = .writing n done)
    (hfiles : s.files.rename (writer i).temp (writer i).target = some files) {name : String}
    (hname : name ≠ (writer i).temp) :
    files.read name = update s.files.read (writer i).target (some done) name := by
  obtain ⟨hentry, hcontent⟩ := h.opened i n done hi
  obtain ⟨k, hk, hcontent', -, hentry'⟩ := FileSystem.rename_eq hfiles
  obtain rfl : n = k := Option.some.inj (hentry.symm.trans hk)
  unfold FileSystem.read
  rw [hcontent', hentry']
  by_cases ht : name = (writer i).target
  · subst ht
    simp [hcontent]
  · rw [update_of_ne ht, update_of_ne hname, update_of_ne ht]

variable [DecidableEq ι]

/-- What registers hold after the writers have put their data there, one after the other. -/
def registers (writer : ι → Writer α) (start : String → Option (List α)) (renamed : List ι) :
    String → Option (List α) :=
  renamed.foldl (fun r i => update r (writer i).target (some (writer i).data)) start

def Replacing.advance (s : Replacing ι α) (i : ι) (files : FileSystem α) (stage : Stage α) :
    Replacing ι α :=
  ⟨files, update s.stage i stage⟩

@[simp] theorem Replacing.advance_files (s : Replacing ι α) (i : ι) (files : FileSystem α)
    (stage : Stage α) : (s.advance i files stage).files = files := rfl

@[simp] theorem Replacing.advance_self (s : Replacing ι α) (i : ι) (files : FileSystem α)
    (stage : Stage α) : (s.advance i files stage).stage i = stage := update_self ..

theorem Replacing.advance_of_ne (s : Replacing ι α) {i j : ι} (h : j ≠ i) (files : FileSystem α)
    (stage : Stage α) : (s.advance i files stage).stage j = s.stage j := update_of_ne h ..

/-- Other writers are where they were. -/
theorem Replacing.Open.of_advance {i j : ι} {files : FileSystem α} {stage : Stage α}
    (h : (s.advance i files stage).Open j) (hj : j ≠ i) : s.Open j := by
  obtain ⟨n, done, h⟩ := h
  exact ⟨n, done, by rwa [s.advance_of_ne hj] at h⟩

namespace Filling

/-- A move of one writer keeps the invariant when it keeps the files of the others. -/
theorem advance (h : Filling writer s) {i : ι} {files : FileSystem α} {stage : Stage α}
    (hself : ∀ n done, stage = .writing n done →
      files.entry (writer i).temp = some n ∧ files.content n = done)
    (halone : (∃ n done, stage = .writing n done) → ∀ j, j ≠ i → s.Open j →
      (writer j).temp ≠ (writer i).temp)
    (hothers : ∀ j, j ≠ i → ∀ n done, s.stage j = .writing n done →
      files.entry (writer j).temp = some n ∧ files.content n = done) :
    Filling writer (s.advance i files stage) := by
  constructor
  · intro j n done hj
    by_cases hji : j = i
    · subst hji
      exact hself n done (by simpa using hj)
    · rw [s.advance_of_ne hji] at hj
      exact hothers j hji n done hj
  · intro j k hj hk hjk
    have hopen : ∀ {x}, (s.advance i files stage).Open x → x = i →
        ∃ n done, stage = .writing n done := by
      rintro x ⟨n, done, hx⟩ rfl
      exact ⟨n, done, by simpa using hx⟩
    by_cases hji : j = i <;> by_cases hki : k = i
    · rw [hji, hki]
    · exact absurd (hji ▸ hjk.symm) (halone (hopen hj hji) k hki (hk.of_advance hki))
    · exact absurd (hki ▸ hjk) (halone (hopen hk hki) j hji (hj.of_advance hji))
    · exact h.alone j k (hj.of_advance hji) (hk.of_advance hki) hjk

theorem create {i : ι} (h : Filling writer s)
    (halone : ∀ j, (writer j).temp = (writer i).temp → ¬ s.Open j) :
    Filling writer (s.advance i (s.files.create (writer i).temp).1
      (.writing (s.files.create (writer i).temp).2 [])) := by
  refine h.advance ?_ (fun _ j _ hj he => halone j he hj) ?_
  · rintro n done heq
    obtain ⟨rfl, rfl⟩ := Stage.writing.inj heq
    exact ⟨s.files.entry_create_self _, s.files.content_create_self _⟩
  · intro j _ n done hj
    obtain ⟨hentry, hcontent⟩ := h.opened j n done hj
    have hne : (writer j).temp ≠ (writer i).temp := fun he => halone j he ⟨n, done, hj⟩
    rw [s.files.entry_create_of_ne hne, s.files.content_create_of_ne hne hentry]
    exact ⟨hentry, hcontent⟩

theorem rename {i : ι} {n : ℕ} {files : FileSystem α} {done : List α} (h : Filling writer s)
    (hnames : ∀ j, (writer j).temp ≠ (writer i).target) (hi : s.stage i = .writing n done)
    (hfiles : s.files.rename (writer i).temp (writer i).target = some files) :
    Filling writer (s.advance i files .renamed) := by
  obtain ⟨k, -, hcontent, -, hentry⟩ := FileSystem.rename_eq hfiles
  refine h.advance (by simp) (by simp) ?_
  intro j hj m done' hstage
  obtain ⟨hentry', hcontent'⟩ := h.opened j m done' hstage
  have hne := h.temp_ne ⟨n, done, hi⟩ ⟨m, done', hstage⟩ hj
  rw [hentry, hcontent, update_of_ne (hnames j), update_of_ne hne]
  exact ⟨hentry', hcontent'⟩

theorem stop {i : ι} (h : Filling writer s) : Filling writer (s.advance i s.files .stopped) :=
  h.advance (by simp) (by simp) fun j _ => h.opened j

end Filling

variable [Inhabited α]

/-- One writer makes a move. It writes its data piece by piece where it stands, renames when
all is written, and may stop at any time, for an error or for good. -/
inductive Moves (writer : ι → Writer α) :
    Replacing ι α → ι → Action α → Replacing ι α → Prop
  | create {s : Replacing ι α} {i : ι} : s.stage i = .waiting →
    Moves writer s i .create (s.advance i (s.files.create (writer i).temp).1
      (.writing (s.files.create (writer i).temp).2 []))
  | write {s : Replacing ι α} {i : ι} {n : ℕ} {done : List α} (piece : List α) :
    s.stage i = .writing n done → done ++ piece <+: (writer i).data →
    Moves writer s i (.write piece) (s.advance i (s.files.write n done.length piece)
      (.writing n (done ++ piece)))
  | rename {s : Replacing ι α} {i : ι} {n : ℕ} {files : FileSystem α} :
    s.stage i = .writing n (writer i).data →
    s.files.rename (writer i).temp (writer i).target = some files →
    Moves writer s i .rename (s.advance i files .renamed)
  | stop {s : Replacing ι α} {i : ι} : Moves writer s i .stop (s.advance i s.files .stopped)

/-- Moves of which none opens a temporary file that another writer has open, with the
writers that have renamed theirs, oldest first. -/
inductive Run (writer : ι → Writer α) : Replacing ι α → List ι → Replacing ι α → Prop
  | refl {s : Replacing ι α} : Run writer s [] s
  | create {s s' s'' : Replacing ι α} {renamed : List ι} {i : ι} (run : Run writer s renamed s')
    (alone : ∀ j, (writer j).temp = (writer i).temp → ¬ s'.Open j)
    (move : Moves writer s' i .create s'') : Run writer s renamed s''
  | write {s s' s'' : Replacing ι α} {renamed : List ι} {i : ι} {piece : List α}
    (run : Run writer s renamed s') (move : Moves writer s' i (.write piece) s'') :
    Run writer s renamed s''
  | rename {s s' s'' : Replacing ι α} {renamed : List ι} {i : ι} (run : Run writer s renamed s')
    (move : Moves writer s' i .rename s'') : Run writer s (renamed ++ [i]) s''
  | stop {s s' s'' : Replacing ι α} {renamed : List ι} {i : ι} (run : Run writer s renamed s')
    (move : Moves writer s' i .stop s'') : Run writer s renamed s''

theorem Filling.write {i : ι} {n : ℕ} {done : List α} (h : Filling writer s)
    (hi : s.stage i = .writing n done) (piece : List α) :
    Filling writer (s.advance i (s.files.write n done.length piece)
      (.writing n (done ++ piece))) := by
  obtain ⟨hentry, hcontent⟩ := h.opened i n done hi
  refine h.advance ?_ (fun _ j hj hopen => h.temp_ne ⟨n, done, hi⟩ hopen hj) ?_
  · rintro k done' heq
    obtain ⟨rfl, rfl⟩ := Stage.writing.inj heq
    refine ⟨hentry, ?_⟩
    rw [FileSystem.content_write_self, hcontent, overwrite_end]
  · intro j hj k done' hstage
    obtain ⟨hentry', hcontent'⟩ := h.opened j k done' hstage
    refine ⟨hentry', ?_⟩
    rw [FileSystem.content_write_of_ne, hcontent']
    rintro rfl
    exact h.temp_ne ⟨k, done, hi⟩ ⟨k, done', hstage⟩ hj (s.files.single _ _ k hentry' hentry)

/-- Open temporary files stay what they are. -/
theorem Run.filling (hnames : ∀ i j, (writer i).temp ≠ (writer j).target)
    (hfill : Filling writer s) (h : Run writer s renamed s') : Filling writer s' := by
  induction h with
  | refl => exact hfill
  | create _ alone move ih =>
    cases move with
    | create _ => exact ih.create alone
  | write _ move ih =>
    cases move with
    | write _ hi _ => exact ih.write hi _
  | rename _ move ih =>
    cases move with
    | rename hi hfiles => exact ih.rename (fun j => hnames j _) hi hfiles
  | stop _ move ih =>
    cases move with
    | stop => exact ih.stop

/-- Under all other names the files change as registers do, each of which is written at the
moment of a renaming. -/
theorem Run.registers (hnames : ∀ i j, (writer i).temp ≠ (writer j).target)
    (hfill : Filling writer s) (h : Run writer s renamed s') {name : String}
    (hname : ∀ i, name ≠ (writer i).temp) :
    s'.files.read name = Files.registers writer s.files.read renamed name := by
  induction h with
  | refl => rfl
  | create _ _ move ih =>
    cases move with
    | create _ => rw [← ih, Replacing.advance_files, FileSystem.read_create_of_ne _ (hname _)]
  | write run move ih =>
    cases move with
    | write _ hi _ =>
      have hentry := ((run.filling hnames hfill).opened _ _ _ hi).1
      rw [← ih, Replacing.advance_files, FileSystem.read_write_of_ne _ hentry (hname _)]
  | @rename _ _ _ i run move ih =>
    cases move with
    | rename hi hfiles =>
      rw [Replacing.advance_files, read_rename (run.filling hnames hfill) hi hfiles (hname _),
        Files.registers, List.foldl_append]
      by_cases ht : name = (writer i).target
      · simp [ht]
      · rw [update_of_ne ht, List.foldl_cons, List.foldl_nil, update_of_ne ht]
        exact ih
  | stop _ move ih =>
    cases move with
    | stop => exact ih

/-- A file that no temporary name leads to. -/
structure Settled (writer : ι → Writer α) (s : Replacing ι α) (n : ℕ) : Prop where
  exist : n < s.files.fresh
  temp : ∀ i, s.files.entry (writer i).temp ≠ some n

omit [DecidableEq ι] [Inhabited α] in
theorem settled_of_entry {name : String} (hname : ∀ i, name ≠ (writer i).temp) {n : ℕ}
    (hn : s.files.entry name = some n) : Settled writer s n :=
  ⟨s.files.exist name n hn, fun i hi => hname i (s.files.single _ _ n hn hi)⟩

/-- It is not written again, whatever becomes of its name: who has opened it reads the same
text however long reading takes. -/
theorem Run.settled (hnames : ∀ i j, (writer i).temp ≠ (writer j).target)
    (hfill : Filling writer s) (h : Run writer s renamed s') {n : ℕ} (hn : Settled writer s n) :
    Settled writer s' n ∧ s'.files.content n = s.files.content n := by
  induction h with
  | refl => exact ⟨hn, rfl⟩
  | @create _ _ _ i _ _ move ih =>
    obtain ⟨⟨hexist, htemp⟩, hcontent⟩ := ih
    cases move with
    | create _ =>
      obtain ⟨hne, hsame⟩ := FileSystem.create_other _ hexist (htemp i)
      refine ⟨⟨Nat.lt_of_lt_of_le hexist (FileSystem.fresh_le_create _ _), fun j => ?_⟩,
        hsame.trans hcontent⟩
      by_cases hj : (writer j).temp = (writer i).temp
      · rw [hj, Replacing.advance_files, FileSystem.entry_create_self]
        exact fun he => hne (Option.some.inj he)
      · rw [Replacing.advance_files, FileSystem.entry_create_of_ne _ hj]
        exact htemp j
  | @write _ _ _ i _ run move ih =>
    obtain ⟨⟨hexist, htemp⟩, hcontent⟩ := ih
    cases move with
    | @write k _ _ hi _ =>
      have hne : n ≠ k := by
        rintro rfl
        exact htemp i ((run.filling hnames hfill).opened i n _ hi).1
      exact ⟨⟨hexist, htemp⟩, (FileSystem.content_write_of_ne _ hne _ _).trans hcontent⟩
  | @rename _ _ _ i _ move ih =>
    obtain ⟨⟨hexist, htemp⟩, hcontent⟩ := ih
    cases move with
    | rename _ hfiles =>
      obtain ⟨k, -, hsame, hfresh, hentry⟩ := FileSystem.rename_eq hfiles
      refine ⟨⟨hfresh ▸ hexist, fun j => ?_⟩, by rw [Replacing.advance_files, hsame, hcontent]⟩
      rw [Replacing.advance_files, hentry, update_of_ne (hnames j _)]
      by_cases hj : (writer j).temp = (writer i).temp
      · simp [hj]
      · rw [update_of_ne hj]
        exact htemp j
  | stop _ move ih =>
    cases move with
    | stop => exact ⟨⟨ih.1.exist, ih.1.temp⟩, ih.2⟩

end Protocol

end Bbkar.Files
