import Mathlib.Data.Finset.Insert
import Mathlib.Data.Finset.Dedup
import Mathlib.Logic.Function.Basic

/-!
# Sending and receiving snapshots

A root is a directory of named snapshots. A full stream carries a snapshot with its name,
an incremental one what changed since a parent. Receiving inverts sending, for incremental
streams where the root holds the parent.
-/
namespace Bbkar.SendReceive
open Function

/-- The snapshots in a directory, with the names of its entries. -/
structure Root (ν C : Type) where
  lookup : ν → Option C
  entries : Finset ν
  mem_entries : ∀ name, name ∈ entries ↔ (lookup name).isSome

namespace Root

variable {ν C ι : Type}

def empty : Root ν C := ⟨fun _ => none, ∅, by simp⟩

theorem lookup_eq_none {root : Root ν C} {name : ν} (h : name ∉ root.entries) :
    root.lookup name = none := by
  rw [root.mem_entries] at h
  simpa using h

theorem exists_lookup {root : Root ν C} {name : ν} (h : name ∈ root.entries) :
    ∃ c, root.lookup name = some c :=
  Option.isSome_iff_exists.mp ((root.mem_entries name).mp h)

/-- The second root has the snapshots of `S`, and is the first one elsewhere. -/
structure Extends (name : ι → ν) (content : ι → C) (S : ι → Prop) (root root' : Root ν C) :
    Prop where
  has : ∀ i, S i → root'.lookup (name i) = some (content i)
  other : ∀ x, (∀ i, S i → x ≠ name i) → root'.lookup x = root.lookup x

variable {name : ι → ν} {content : ι → C} {S S' : ι → Prop} {root root' : Root ν C}

theorem Extends.refl (root : Root ν C) : Extends name content (fun _ => False) root root :=
  ⟨fun _ h => h.elim, fun _ _ => rfl⟩

theorem Extends.congr (h : Extends name content S root root') (hS : ∀ i, S i ↔ S' i) :
    Extends name content S' root root' := by
  obtain rfl : S = S' := funext fun i => propext (hS i)
  exact h

/-- A snapshot that is there already may count as one of `S`. -/
theorem Extends.skip (h : Extends name content S root root') {j : ι}
    (hj : root'.lookup (name j) = some (content j)) :
    Extends name content (fun i => S i ∨ i = j) root root' := by
  refine ⟨?_, fun x hx => h.other x fun i hi => hx i (Or.inl hi)⟩
  rintro i (hi | rfl)
  · exact h.has i hi
  · exact hj

variable [DecidableEq ν]

def put (root : Root ν C) (name : ν) (c : C) : Root ν C where
  lookup := update root.lookup name (some c)
  entries := insert name root.entries
  mem_entries := by
    intro x
    by_cases hx : x = name <;> simp [hx, root.mem_entries]

@[simp] theorem put_lookup (root : Root ν C) (name : ν) (c : C) :
    (root.put name c).lookup = update root.lookup name (some c) := rfl

theorem Extends.put (hname : Injective name) (h : Extends name content S root root') (j : ι) :
    Extends name content (fun i => S i ∨ i = j) root (root'.put (name j) (content j)) := by
  refine ⟨?_, ?_⟩
  · rintro i (hi | rfl)
    · by_cases hij : i = j
      · simp [hij]
      · simpa [hname.ne hij] using h.has i hi
    · simp
  · intro x hx
    rw [put_lookup, update_of_ne (hx j (Or.inr rfl))]
    exact h.other x fun i hi => hx i (Or.inl hi)

end Root

/-- The two commands. Receiving reports the exit code and the error text of a failure, and
a receive that is cut off leaves the root in some state. -/
structure Transfer (ν C σ : Type) [DecidableEq ν] where
  sendFull : ν → C → σ
  sendIncremental : ν → C → ν → C → σ
  receive : Root ν C → σ → Option (ℤ × String) × Root ν C
  interrupt : Root ν C → Root ν C
  receive_full : ∀ root name c, root.lookup name = none →
    receive root (sendFull name c) = (none, root.put name c)
  receive_incremental : ∀ root name c parent cp, root.lookup name = none →
    root.lookup parent = some cp →
      receive root (sendIncremental name c parent cp) = (none, root.put name c)

namespace Transfer

variable {ν C σ : Type} [DecidableEq ν]

/-- The stream of a snapshot, incremental when a parent is given. -/
def stream (T : Transfer ν C σ) (name : ν) (c : C) : Option (ν × C) → σ
  | none => T.sendFull name c
  | some parent => T.sendIncremental name c parent.1 parent.2

theorem receive_stream (T : Transfer ν C σ) {root : Root ν C} {name : ν} {c : C}
    {parent : Option (ν × C)} (hname : root.lookup name = none)
    (hparent : ∀ p, parent = some p → root.lookup p.1 = some p.2) :
    T.receive root (T.stream name c parent) = (none, root.put name c) := by
  cases parent with
  | none => exact T.receive_full root name c hname
  | some p => exact T.receive_incremental root name c p.1 p.2 hname (hparent p rfl)

end Transfer

end Bbkar.SendReceive
