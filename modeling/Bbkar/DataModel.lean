import Mathlib.Algebra.GroupWithZero.Nat
import Mathlib.Data.List.Nodup

/-!
# Self-describing values

The part of serde's data model that metadata uses, with the readers and writers that
derived implementations are made of: a reader of numbers checks the range of its integer
type, a null or a missing field reads as an absent option, and unknown fields are ignored.
-/
namespace Bbkar.DataModel

inductive Value where
  | null
  | nat (n : ℕ)
  | str (s : String)
  | seq (items : List Value)
  | map (entries : List (String × Value))

variable {α : Type}

/-! ## Readers and writers -/

/-- An integer type with values below `bound`. -/
def readNat (bound : ℕ) : Value → Option ℕ
  | .nat n => if n < bound then some n else none
  | _ => none

def readU32 : Value → Option ℕ := readNat (2 ^ 32)

def readU64 : Value → Option ℕ := readNat (2 ^ 64)

def readStr : Value → Option String
  | .str s => some s
  | _ => none

def writeOption (write : α → Value) : Option α → Value
  | none => .null
  | some a => write a

def readOption (read : Value → Option α) : Value → Option (Option α)
  | .null => some none
  | v => (read v).map some

def writeList (write : α → Value) (as : List α) : Value := .seq (as.map write)

def readList (read : Value → Option α) : Value → Option (List α)
  | .seq items => items.mapM read
  | _ => none

/-- A struct is written as a mapping of its fields in the order of their declaration. -/
def writeStruct (fields : List String) (values : List Value) : Value := .map (fields.zip values)

/-- A struct is read from a mapping that names no field twice. -/
def readStruct (fields : List String) : Value → Option (List (String × Value))
  | .map entries =>
    if ((entries.map Prod.fst).filter (fun key => decide (key ∈ fields))).Nodup then some entries
    else none
  | _ => none

def readField (entries : List (String × Value)) (name : String) (read : Value → Option α) :
    Option α :=
  (entries.lookup name).bind read

def readOptionField (entries : List (String × Value)) (name : String)
    (read : Value → Option α) : Option (Option α) :=
  match entries.lookup name with
  | none => some none
  | some v => readOption read v

/-! ## Round trips -/

theorem readU32_nat {n : ℕ} (h : n < 2 ^ 32) : readU32 (.nat n) = some n := if_pos h

theorem readU64_nat {n : ℕ} (h : n < 2 ^ 64) : readU64 (.nat n) = some n := if_pos h

@[simp] theorem readStr_str (s : String) : readStr (.str s) = some s := rfl

theorem readOption_writeOption {write : α → Value} {read : Value → Option α}
    (hnull : ∀ a, write a ≠ .null) {o : Option α} (h : ∀ a, o = some a → read (write a) = some a) :
    readOption read (writeOption write o) = some o := by
  cases o with
  | none => rfl
  | some a =>
    have hread : readOption read (write a) = (read (write a)).map some := by
      have hne := hnull a
      unfold readOption
      split
      · contradiction
      · rfl
    rw [writeOption, hread, h a rfl, Option.map_some]

theorem readList_writeList {write : α → Value} {read : Value → Option α} {as : List α}
    (h : ∀ a ∈ as, read (write a) = some a) : readList read (writeList write as) = some as := by
  unfold readList writeList
  induction as with
  | nil => rfl
  | cons a as ih =>
    have htail := ih fun b hb => h b (List.mem_cons_of_mem _ hb)
    simp only at htail
    simp [h a List.mem_cons_self, htail]

/-- The mapping of a struct with distinct field names reads as its entries. -/
theorem readStruct_writeStruct {fields : List String} {values : List Value}
    (hlen : values.length = fields.length) (hfields : fields.Nodup) :
    readStruct fields (writeStruct fields values) = some (fields.zip values) := by
  have hkeys : (fields.zip values).map Prod.fst = fields :=
    List.map_fst_zip (Nat.le_of_eq hlen.symm)
  rw [writeStruct, readStruct, hkeys, if_pos (hfields.filter _)]

/-! ## Fields of a mapping -/

@[simp] theorem readField_cons_self (entries : List (String × Value)) (name : String) (v : Value)
    (read : Value → Option α) : readField ((name, v) :: entries) name read = read v := by
  rw [readField, List.lookup_cons_self, Option.bind_some]

@[simp] theorem readField_cons_of_ne {entries : List (String × Value)} {key name : String}
    {v : Value} {read : Value → Option α} (h : name ≠ key) :
    readField ((key, v) :: entries) name read = readField entries name read := by
  rw [readField, readField, List.lookup_cons, beq_false_of_ne h]

@[simp] theorem readOptionField_cons_self (entries : List (String × Value)) (name : String)
    (v : Value) (read : Value → Option α) :
    readOptionField ((name, v) :: entries) name read = readOption read v := by
  rw [readOptionField, List.lookup_cons_self]

@[simp] theorem readOptionField_cons_of_ne {entries : List (String × Value)}
    {key name : String} {v : Value} {read : Value → Option α} (h : name ≠ key) :
    readOptionField ((key, v) :: entries) name read = readOptionField entries name read := by
  rw [readOptionField, readOptionField, List.lookup_cons, beq_false_of_ne h]

end Bbkar.DataModel
