import Bbkar.DestMeta
import Bbkar.Codec
import Mathlib.Data.List.DropRight
import Mathlib.Logic.Function.Basic

/-!
# The destination store

Objects are keyed by the paths the executor builds. Names without a slash determine their
path and are determined by it, so objects of different snapshots never share a key. In a
local directory files are read under these keys and written under joined paths; for which
names the two are one file is said in `ReadPaths`.
-/
namespace Bbkar
open Codec Function

/-! ## Paths -/

/-- `str::trim_matches`. -/
def trimMatches (c : Char) (s : String) : String :=
  String.ofList ((s.toList.dropWhile (· == c)).rdropWhile (· == c))

def pathInVolume (volume name : String) : String :=
  trimMatches '/' volume ++ "/" ++ trimMatches '/' name

def pathInSnapshot (volume snapshot name : String) : String :=
  trimMatches '/' volume ++ "/" ++ trimMatches '/' snapshot ++ "/" ++ trimMatches '/' name

/-- `META_FILENAME`. -/
def metaFilename : String := "bbkar-meta.yaml"

/-- `format!("part{:06}.btrfs.zstd", part_number)`. -/
def partFilename (partNumber : ℕ) : String :=
  let digits := Nat.toDigits 10 partNumber
  "part" ++ String.ofList (List.replicate (6 - digits.length) '0' ++ digits) ++ ".btrfs.zstd"

def SlashFree (s : String) : Prop := '/' ∉ s.toList

instance (s : String) : Decidable (SlashFree s) := by unfold SlashFree; infer_instance

theorem trimMatches_eq_self {c : Char} {s : String} (h : c ∉ s.toList) :
    trimMatches c s = s := by
  have hne : ∀ x ∈ s.toList, (x == c) = false := by
    intro x hx
    simpa using fun hxc : x = c => h (hxc ▸ hx)
  have hdrop : s.toList.dropWhile (· == c) = s.toList := by
    cases hs : s.toList with
    | nil => rfl
    | cons x xs => rw [List.dropWhile_cons, hne x (by simp [hs])]; simp
  have hrdrop : s.toList.rdropWhile (· == c) = s.toList := by
    rw [List.rdropWhile_eq_self_iff]
    intro hl
    simp [hne _ (List.getLast_mem hl)]
  rw [trimMatches, hdrop, hrdrop, String.ofList_toList]

/-- The first slash cuts a joined path where it was joined. -/
theorem append_slash_inj {a a' b b' : List Char} (ha : '/' ∉ a) (ha' : '/' ∉ a')
    (h : a ++ '/' :: b = a' ++ '/' :: b') : a = a' ∧ b = b' := by
  induction a generalizing a' with
  | nil =>
    cases a' with
    | nil => simpa using h
    | cons x xs =>
      simp only [List.nil_append, List.cons_append, List.cons.injEq] at h
      exact absurd (h.1 ▸ List.mem_cons_self) ha'
  | cons x xs ih =>
    cases a' with
    | nil =>
      simp only [List.nil_append, List.cons_append, List.cons.injEq] at h
      exact absurd (h.1 ▸ List.mem_cons_self) ha
    | cons y ys =>
      simp only [List.cons_append, List.cons.injEq] at h
      obtain ⟨rfl, hb⟩ := ih (fun hm => ha (List.mem_cons_of_mem _ hm))
        (fun hm => ha' (List.mem_cons_of_mem _ hm)) h.2
      exact ⟨by rw [h.1], hb⟩

theorem pathInVolume_toList {volume name : String} (hv : SlashFree volume)
    (hn : SlashFree name) :
    (pathInVolume volume name).toList = volume.toList ++ '/' :: name.toList := by
  simp [pathInVolume, trimMatches_eq_self hv, trimMatches_eq_self hn]

theorem pathInSnapshot_toList {volume snapshot name : String} (hv : SlashFree volume)
    (hs : SlashFree snapshot) (hn : SlashFree name) :
    (pathInSnapshot volume snapshot name).toList =
      volume.toList ++ '/' :: (snapshot.toList ++ '/' :: name.toList) := by
  simp [pathInSnapshot, trimMatches_eq_self hv, trimMatches_eq_self hs, trimMatches_eq_self hn]

theorem pathInVolume_inj {v v' n n' : String} (hv : SlashFree v) (hv' : SlashFree v')
    (hn : SlashFree n) (hn' : SlashFree n') (h : pathInVolume v n = pathInVolume v' n') :
    v = v' ∧ n = n' := by
  have hl := congrArg String.toList h
  rw [pathInVolume_toList hv hn, pathInVolume_toList hv' hn'] at hl
  obtain ⟨h₁, h₂⟩ := append_slash_inj hv hv' hl
  exact ⟨String.toList_inj.mp h₁, String.toList_inj.mp h₂⟩

theorem pathInSnapshot_inj {v v' s s' n n' : String} (hv : SlashFree v) (hv' : SlashFree v')
    (hs : SlashFree s) (hs' : SlashFree s') (hn : SlashFree n) (hn' : SlashFree n')
    (h : pathInSnapshot v s n = pathInSnapshot v' s' n') : v = v' ∧ s = s' ∧ n = n' := by
  have hl := congrArg String.toList h
  rw [pathInSnapshot_toList hv hs hn, pathInSnapshot_toList hv' hs' hn'] at hl
  obtain ⟨h₁, hl⟩ := append_slash_inj hv hv' hl
  obtain ⟨h₂, h₃⟩ := append_slash_inj hs hs' hl
  exact ⟨String.toList_inj.mp h₁, String.toList_inj.mp h₂, String.toList_inj.mp h₃⟩

/-- Files of snapshots and files of volumes lie at different depths. -/
theorem pathInVolume_ne_pathInSnapshot {v v' s n n' : String} (hv : SlashFree v)
    (hv' : SlashFree v') (hs : SlashFree s) (hn : SlashFree n) (hn' : SlashFree n') :
    pathInVolume v n ≠ pathInSnapshot v' s n' := by
  intro h
  have hl := congrArg String.toList h
  rw [pathInVolume_toList hv hn, pathInSnapshot_toList hv' hs hn'] at hl
  obtain ⟨-, h₂⟩ := append_slash_inj hv hv' hl
  exact hn (h₂ ▸ by simp)

theorem slashFree_metaFilename : SlashFree metaFilename := by decide

theorem slashFree_partFilename (n : ℕ) : SlashFree (partFilename n) := by
  have hdigits : '/' ∉ Nat.toDigits 10 n := by
    intro h
    exact absurd (Nat.isDigit_of_mem_toDigits (by decide) (by decide) h) (by decide)
  simp [SlashFree, partFilename, hdigits]

/-- Padding keeps the number, so different parts have different names. -/
theorem partFilename_injective : Injective partFilename := by
  intro m n h
  have hl := congrArg String.toList h
  simp only [partFilename, String.toList_append, String.toList_ofList] at hl
  have hdigits := List.append_cancel_left (List.append_cancel_right hl)
  have hvalue := congrArg (fun cs => Nat.ofDigitChars 10 cs 0) hdigits
  simpa only [Nat.ofDigitChars_append, Nat.ofDigitChars_replicate_zero, Nat.mul_zero,
    Nat.ofDigitChars_ten_toDigits] using hvalue

/-! ## Objects -/

/-- A part file, or a metadata file with the value it holds. -/
inductive Blob where
  | part (bytes : Bytes)
  | metadata (m : DestMeta)
  deriving DecidableEq

abbrev Store := String → Option Blob

def metaKey (volume : String) : String := pathInVolume volume metaFilename

def partKey (volume snapshot : String) (n : ℕ) : String :=
  pathInSnapshot volume snapshot (partFilename n)

/-- The metadata a volume has at the moment. -/
def Persisted (store : Store) (volume : String) (m : DestMeta) : Prop :=
  store (metaKey volume) = some (.metadata m)

theorem Persisted.unique {store : Store} {volume : String} {m m' : DestMeta}
    (h : Persisted store volume m) (h' : Persisted store volume m') : m = m' := by
  rw [Persisted] at h h'
  simpa using h.symm.trans h'

/-- The same as the planner's input. -/
def destStateOn (store : Store) (volume : String) : DestState :=
  match store (metaKey volume) with
  | some (.metadata m) => ⟨some m⟩
  | _ => ⟨none⟩

theorem destStateOn_persisted {store : Store} {volume : String} {m : DestMeta}
    (h : Persisted store volume m) : destStateOn store volume = ⟨some m⟩ := by
  rw [destStateOn, show store (metaKey volume) = some (.metadata m) from h]

theorem persisted_of_destMeta {store : Store} {volume : String} {m : DestMeta}
    (h : (destStateOn store volume).destMeta = some m) : Persisted store volume m := by
  unfold destStateOn at h
  split at h
  · obtain rfl := Option.some.inj h
    assumption
  · simp at h

def HasPart (store : Store) (key : String) (bytes : Bytes) : Prop :=
  store key = some (.part bytes)

/-- The keys that writing one snapshot may touch. -/
def PartsOf (volume snapshot key : String) : Prop := ∃ n, key = partKey volume snapshot n

theorem metaKey_inj {v v' : String} (hv : SlashFree v) (hv' : SlashFree v')
    (h : metaKey v = metaKey v') : v = v' :=
  (pathInVolume_inj hv hv' slashFree_metaFilename slashFree_metaFilename h).1

theorem metaKey_not_partsOf {v v' s : String} (hv : SlashFree v) (hv' : SlashFree v')
    (hs : SlashFree s) : ¬ PartsOf v' s (metaKey v) := by
  rintro ⟨n, h⟩
  exact pathInVolume_ne_pathInSnapshot hv hv' hs slashFree_metaFilename
    (slashFree_partFilename n) h

theorem partsOf_disjoint {v v' s s' key : String} (hv : SlashFree v) (hv' : SlashFree v')
    (hs : SlashFree s) (hs' : SlashFree s') (h : PartsOf v s key) (h' : PartsOf v' s' key) :
    v = v' ∧ s = s' := by
  obtain ⟨n, rfl⟩ := h
  obtain ⟨n', h'⟩ := h'
  obtain ⟨hvv, hss, -⟩ := pathInSnapshot_inj hv hv' hs hs' (slashFree_partFilename n)
    (slashFree_partFilename n') h'
  exact ⟨hvv, hss⟩

end Bbkar
