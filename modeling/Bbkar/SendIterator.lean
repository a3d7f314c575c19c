import Bbkar.RunSpec
import Mathlib.Algebra.GroupWithZero.Nat

/-!
# Reading the output of `btrfs send`

Translation of `BtrfsSendIterator` and of the two calls of the executor that start it. The
operating system is a parameter: what the process writes to which output, the exit, and how
much the pipe of the error output holds. That pipe is read only after the standard output has
ended, so a process that fills it waits, and so does the iterator. Otherwise, however the
other pipe cuts the bytes, they come as pieces at consecutive offsets, then one last item, and
then nothing however often one asks.
-/
namespace Bbkar
open Codec

/-- `READ_BUF_SIZE`. -/
def readBufSize : ℕ := 1024 * 1024

/-- One thing that a process does with its outputs: something stands ready at a read of the
standard output, or it writes to the error output. -/
inductive Output where
  | stdout (answer : Except BbkarError Bytes)
  | stderr (text : Bytes)

/-- What a process writes until its standard output ends, the error output it adds after
that, and the exit, without a code when a signal ended the process. -/
structure SendProcess where
  outputs : List Output
  errors : Bytes
  exit : Except BbkarError (Option ℕ)

namespace SendProcess

/-- The process goes on to its next use of the standard output. `held` is the error output
that stands in its pipe. Where the pipe has no room for more, nobody makes any. -/
def writeErrors (capacity : ℕ) : List Output → Bytes → BR (List Output × Bytes)
  | .stderr text :: rest, held =>
    if held.length + text.length ≤ capacity then writeErrors capacity rest (held ++ text)
    else .error .diverges
  | outputs, held => .ok (outputs, held)

/-- A read of the standard output, into a buffer of `readBufSize` bytes. What does not fit
stays ready. -/
def answer : List Output → Except BbkarError Bytes × List Output
  | .stdout (.ok data) :: rest =>
    if data.length ≤ readBufSize then (.ok data, rest)
    else (.ok (data.take readBufSize), .stdout (.ok (data.drop readBufSize)) :: rest)
  | .stdout (.error e) :: rest => (.error e, rest)
  | outputs => (.ok [], outputs)

def read (capacity : ℕ) (p : SendProcess) (held : Bytes) :
    BR (Except BbkarError Bytes × SendProcess × Bytes) := do
  let (outputs, held) ← writeErrors capacity p.outputs held
  let (data, outputs) := answer outputs
  return (data, { p with outputs := outputs }, held)

def errorBytes : List Output → Bytes
  | [] => []
  | .stderr text :: rest => text ++ errorBytes rest
  | .stdout _ :: rest => errorBytes rest

/-- `read_to_string` on the error output, after the end of the standard output. -/
def stderr (p : SendProcess) (held : Bytes) : String :=
  (String.fromUTF8? ⟨(held ++ errorBytes p.outputs ++ p.errors).toArray⟩).getD ""

/-- `child.wait()` after the error output has been read. -/
def wait (p : SendProcess) (held : Bytes) : Except BbkarError BtrfsSendChunk :=
  p.exit.map fun code => .processExit (code.getD 1) (p.stderr held)

/-- The bytes that are written before the file ends or a read fails. -/
def delivered : List Output → Bytes
  | .stderr _ :: rest => delivered rest
  | .stdout (.ok (b :: data)) :: rest => b :: data ++ delivered rest
  | _ => []

/-- The error of the first read that fails, unless the file ends before. -/
def readError : List Output → Option BbkarError
  | .stderr _ :: rest => readError rest
  | .stdout (.ok (_ :: _)) :: rest => readError rest
  | .stdout (.error e) :: _ => some e
  | _ => none

/-- How much error output is written before that. -/
def errorsBefore : List Output → ℕ
  | .stderr text :: rest => text.length + errorsBefore rest
  | .stdout (.ok (_ :: _)) :: rest => errorsBefore rest
  | _ => 0

/-- The error output that is written before the end of the standard output fits its pipe, so
the process never waits for somebody to read it. -/
def NeverBlocks (capacity : ℕ) (p : SendProcess) : Prop := errorsBefore p.outputs ≤ capacity

instance (capacity : ℕ) (p : SendProcess) : Decidable (p.NeverBlocks capacity) :=
  inferInstanceAs (Decidable (_ ≤ _))

/-- The item that ends the stream. -/
def last (p : SendProcess) (held : Bytes) : Except BbkarError BtrfsSendChunk :=
  match readError p.outputs with
  | some e => .error e
  | none => p.wait held

/-- A bound on the reads there can be. -/
def size : List Output → ℕ
  | [] => 0
  | .stderr _ :: rest => size rest
  | .stdout answer :: rest => (answer.toOption.getD []).length + 1 + size rest

end SendProcess

/-- `stderr` is what stands in the pipe of the error output, from which `next` takes it only
at the end. -/
structure BtrfsSendIterator where
  child : SendProcess
  stderr : Bytes
  offset : ℕ
  done : Bool

namespace BtrfsSendIterator

def new (child : SendProcess) : BtrfsSendIterator := ⟨child, [], 0, false⟩

def next (capacity : ℕ) (it : BtrfsSendIterator) :
    BR (Option (Except BbkarError BtrfsSendChunk) × BtrfsSendIterator) :=
  if it.done then .ok (none, it)
  else
    match it.child.read capacity it.stderr with
    | .error halt => .error halt
    | .ok (.ok [], child, held) =>
      .ok (some (child.wait held), ⟨child, held, it.offset, true⟩)
    | .ok (.ok data, child, held) => .ok (some (.ok (.stdoutBytes data it.offset)),
      ⟨child, held, it.offset + data.length, false⟩)
    | .ok (.error e, child, held) =>
      .ok (some (.error e), ⟨child, held, it.offset, true⟩)

/-- What so many calls of `next` give. -/
def calls (capacity : ℕ) :
    ℕ → BtrfsSendIterator → BR (List (Option (Except BbkarError BtrfsSendChunk)))
  | 0, _ => .ok []
  | n + 1, it =>
    match it.next capacity with
    | .error halt => .error halt
    | .ok (item, it) => (calls capacity n it).map (item :: ·)

/-- The items of a `for` loop, which ends with the first `None`. -/
def collect (capacity : ℕ) : ℕ → BtrfsSendIterator → BR SendStream
  | 0, _ => .ok []
  | fuel + 1, it =>
    match it.next capacity with
    | .error halt => .error halt
    | .ok (none, _) => .ok []
    | .ok (some item, it) => (collect capacity fuel it).map (item :: ·)

end BtrfsSendIterator

/-- The stream of a process. -/
def SendProcess.stream (capacity : ℕ) (p : SendProcess) : BR SendStream :=
  (BtrfsSendIterator.new p).collect capacity (size p.outputs + 2)

/-- The stream of a process that was started, or else the error of starting it. -/
def startedStream (capacity : ℕ) (child : Except BbkarError SendProcess) : BR SendStream :=
  match child with
  | .ok child => child.stream capacity
  | .error e => .ok [.error e]

/-- `read_subvolume_full`. Starting `btrfs send` with some arguments gives a process. -/
def readSubvolumeFull (capacity : ℕ) (start : List String → Except BbkarError SendProcess)
    (srcPath subvolume : String) : BR SendStream :=
  startedStream capacity (start [srcPath ++ "/" ++ subvolume])

def readSubvolumeIncremental (capacity : ℕ)
    (start : List String → Except BbkarError SendProcess) (srcPath subvolume parent : String) :
    BR SendStream :=
  startedStream capacity (start ["-p", srcPath ++ "/" ++ parent, srcPath ++ "/" ++ subvolume])

/-! ## One read -/

/-- Pieces at consecutive offsets. -/
def atOffsets : ℕ → List Bytes → SendStream
  | _, [] => []
  | offset, data :: pieces =>
    .ok (.stdoutBytes data offset) :: atOffsets (offset + data.length) pieces

namespace SendProcess

/-- Error output that fits its pipe changes nothing but the pipe. -/
theorem writeErrors_spec {capacity : ℕ} (outputs : List Output) {held : Bytes}
    (hheld : held.length ≤ capacity) :
    (writeErrors capacity outputs held = .error .diverges ∧
      capacity < held.length + errorsBefore outputs) ∨
    ∃ outputs' held', writeErrors capacity outputs held = .ok (outputs', held') ∧
      (∀ text rest, outputs' ≠ .stderr text :: rest) ∧ held'.length ≤ capacity ∧
      size outputs' = size outputs ∧ readError outputs' = readError outputs ∧
      delivered outputs' = delivered outputs ∧
      held' ++ errorBytes outputs' = held ++ errorBytes outputs ∧
      held'.length + errorsBefore outputs' = held.length + errorsBefore outputs := by
  induction outputs generalizing held with
  | nil => exact Or.inr ⟨[], held, rfl, by simp, hheld, rfl, rfl, rfl, rfl, rfl⟩
  | cons output outputs ih =>
    cases output with
    | stdout answer =>
      exact Or.inr ⟨_, held, rfl, by simp, hheld, rfl, rfl, rfl, rfl, rfl⟩
    | stderr text =>
      by_cases hfits : held.length + text.length ≤ capacity
      · have hstep : writeErrors capacity (.stderr text :: outputs) held =
            writeErrors capacity outputs (held ++ text) := by
          rw [writeErrors, if_pos hfits]
        have hroom : (held ++ text).length ≤ capacity := by
          rw [List.length_append]
          exact hfits
        simpa [hstep, size, readError, delivered, errorBytes, errorsBefore, Nat.add_assoc]
          using ih hroom
      · refine Or.inl ⟨by rw [writeErrors, if_neg hfits], ?_⟩
        simp only [errorsBefore]
        omega

/-- What stands ready at the standard output is taken, as far as the buffer goes. -/
theorem answer_cases {outputs : List Output}
    (hhead : ∀ text rest, outputs ≠ .stderr text :: rest) :
    (errorsBefore outputs = 0 ∧ delivered outputs = [] ∧
      errorBytes (answer outputs).2 = errorBytes outputs ∧
      ((∃ e, (answer outputs).1 = .error e ∧ readError outputs = some e) ∨
      (answer outputs).1 = .ok [] ∧ readError outputs = none)) ∨
    ∃ data rest, answer outputs = (.ok data, rest) ∧ data ≠ [] ∧ data.length ≤ readBufSize ∧
      size rest < size outputs ∧ delivered outputs = data ++ delivered rest ∧
      readError rest = readError outputs ∧ errorBytes rest = errorBytes outputs ∧
      errorsBefore rest = errorsBefore outputs := by
  cases outputs with
  | nil => exact Or.inl ⟨rfl, rfl, rfl, Or.inr ⟨rfl, rfl⟩⟩
  | cons output rest =>
    cases output with
    | stderr text => exact (hhead _ _ rfl).elim
    | stdout ready =>
      cases ready with
      | error e => exact Or.inl ⟨rfl, rfl, rfl, Or.inl ⟨e, rfl, rfl⟩⟩
      | ok data =>
        cases data with
        | nil => exact Or.inl ⟨rfl, rfl, rfl, Or.inr ⟨rfl, rfl⟩⟩
        | cons b data =>
          refine Or.inr ?_
          by_cases hlen : (b :: data).length ≤ readBufSize
          · have hanswer : answer (.stdout (.ok (b :: data)) :: rest) =
                (.ok (b :: data), rest) := by
              rw [answer, if_pos hlen]
            refine ⟨b :: data, rest, hanswer, by simp, hlen, ?_, rfl, rfl, rfl, rfl⟩
            simp only [size]
            omega
          · -- the part that does not fit is not empty
            have hdrop : (b :: data).drop readBufSize ≠ [] := by
              rw [Ne, List.drop_eq_nil_iff]
              omega
            obtain ⟨c, later, hlater⟩ := List.exists_cons_of_ne_nil hdrop
            refine ⟨(b :: data).take readBufSize,
              .stdout (.ok ((b :: data).drop readBufSize)) :: rest,
              by rw [answer, if_neg hlen], by simp [readBufSize], List.length_take_le _ _,
              ?_, ?_, ?_, rfl, ?_⟩
            · have hpos : 0 < readBufSize := by simp [readBufSize]
              simp only [size, Except.toOption, Option.getD_some, List.length_drop]
              omega
            · simp only [hlater, delivered]
              rw [← List.append_assoc, ← hlater, List.take_append_drop]
            · simp only [hlater, readError]
            · simp only [hlater, errorsBefore]

/-- One read hangs, or it is the last one, or it gives a piece. -/
theorem read_cases (capacity : ℕ) (p : SendProcess) (held : Bytes)
    (hheld : held.length ≤ capacity) :
    (p.read capacity held = .error .diverges ∧
      capacity < held.length + errorsBefore p.outputs) ∨
    (held.length + errorsBefore p.outputs ≤ capacity ∧ delivered p.outputs = [] ∧
      ∃ answer p' held', p.read capacity held = .ok (answer, p', held') ∧
        ((∃ e, answer = .error e ∧ p.last held = .error e) ∨
        answer = .ok [] ∧ p'.wait held' = p.last held)) ∨
    ∃ data p' held', p.read capacity held = .ok (.ok data, p', held') ∧
      data ≠ [] ∧ data.length ≤ readBufSize ∧ size p'.outputs < size p.outputs ∧
      delivered p.outputs = data ++ delivered p'.outputs ∧ p'.last held' = p.last held ∧
      held'.length ≤ capacity ∧
      held'.length + errorsBefore p'.outputs = held.length + errorsBefore p.outputs := by
  rcases writeErrors_spec p.outputs hheld with ⟨hwrite, hfull⟩ |
    ⟨outputs, held', hwrite, hhead, hroom, hsize, herror, hdel, hbytes, hcount⟩
  · exact Or.inl ⟨by rw [read, hwrite]; rfl, hfull⟩
  · have hread : p.read capacity held =
        .ok ((answer outputs).1, { p with outputs := (answer outputs).2 }, held') := by
      rw [read, hwrite]
      rfl
    refine Or.inr ?_
    rcases answer_cases hhead with ⟨hbefore, hnone, hrest, hend⟩ |
      ⟨data, rest, hanswer, hne, hlen, hlt, hdata, herror', hbytes', hcount'⟩
    · refine Or.inl ⟨by omega, by rw [← hdel, hnone], _, _, _, hread, ?_⟩
      rcases hend with ⟨e, he, hfail⟩ | ⟨he, hfail⟩
      · exact Or.inl ⟨e, he, by simp only [last, ← herror, hfail]⟩
      · refine Or.inr ⟨he, ?_⟩
        simp only [last, ← herror, hfail, wait, stderr, hrest, hbytes]
    · rw [hanswer] at hread
      refine Or.inr ⟨data, _, _, hread, hne, hlen, by dsimp only; omega,
        by rw [← hdel, hdata], ?_,
        hroom, by dsimp only; omega⟩
      simp only [last, herror', herror, wait, stderr, hbytes', hbytes]

end SendProcess

/-! ## All reads -/

/-- The reads of a process: pieces, and then the last item or a read that never returns. -/
inductive Reads (capacity : ℕ) :
    SendProcess → Bytes → List Bytes → BR (Except BbkarError BtrfsSendChunk) → Prop
  | eof {p p' : SendProcess} {held held' : Bytes}
    (h : p.read capacity held = .ok (.ok [], p', held')) :
    Reads capacity p held [] (.ok (p'.wait held'))
  | error {p p' : SendProcess} {held held' : Bytes} {e : BbkarError}
    (h : p.read capacity held = .ok (.error e, p', held')) :
    Reads capacity p held [] (.ok (.error e))
  | hangs {p : SendProcess} {held : Bytes} {halt : Halt}
    (h : p.read capacity held = .error halt) : Reads capacity p held [] (.error halt)
  | piece {p p' : SendProcess} {held held' data : Bytes} {pieces : List Bytes}
    {last : BR (Except BbkarError BtrfsSendChunk)}
    (h : p.read capacity held = .ok (.ok data, p', held')) (hne : data ≠ [])
    (rest : Reads capacity p' held' pieces last) : Reads capacity p held (data :: pieces) last

namespace SendProcess

/-- The reads of a process whose error output fits its pipe, however the other pipe cuts what
it writes. -/
theorem exists_reads {capacity : ℕ} (p : SendProcess) (held : Bytes)
    (hfits : held.length + errorsBefore p.outputs ≤ capacity) :
    ∃ pieces, Reads capacity p held pieces (.ok (p.last held)) ∧
      pieces.flatten = delivered p.outputs ∧
      (∀ data ∈ pieces, data ≠ [] ∧ data.length ≤ readBufSize) ∧
      pieces.length ≤ size p.outputs := by
  induction hsize : size p.outputs using Nat.strong_induction_on generalizing p held with
  | h n ih =>
    subst hsize
    rcases p.read_cases capacity held (by omega) with ⟨-, hfull⟩ |
      ⟨-, hdel, answer, p', held', hread, hend⟩ |
      ⟨data, p', held', hread, hne, hlen, hlt, hdel, hlast, hroom, hcount⟩
    · omega
    · refine ⟨[], ?_, hdel.symm, by simp, by simp⟩
      rcases hend with ⟨e, rfl, hlast⟩ | ⟨rfl, hlast⟩
      · exact hlast ▸ .error hread
      · exact hlast ▸ .eof hread
    · obtain ⟨pieces, hout, hflat, hpieces, hmany⟩ := ih _ hlt p' held' (hcount ▸ hfits) rfl
      refine ⟨data :: pieces, .piece hread hne (hlast ▸ hout), ?_, ?_, ?_⟩
      · rw [List.flatten_cons, hflat, hdel]
      · simpa using ⟨⟨hne, hlen⟩, hpieces⟩
      · rw [List.length_cons]
        omega

/-- The reads of a process whose error output does not. -/
theorem exists_reads_hang {capacity : ℕ} (p : SendProcess) (held : Bytes)
    (hheld : held.length ≤ capacity)
    (hfull : capacity < held.length + errorsBefore p.outputs) :
    ∃ pieces, Reads capacity p held pieces (.error .diverges) ∧
      pieces.flatten <+: delivered p.outputs ∧
      (∀ data ∈ pieces, data ≠ [] ∧ data.length ≤ readBufSize) ∧
      pieces.length ≤ size p.outputs := by
  induction hsize : size p.outputs using Nat.strong_induction_on generalizing p held with
  | h n ih =>
    subst hsize
    rcases p.read_cases capacity held hheld with ⟨hread, -⟩ | ⟨hfits, -⟩ |
      ⟨data, p', held', hread, hne, hlen, hlt, hdel, -, hroom, hcount⟩
    · exact ⟨[], .hangs hread, List.nil_prefix, by simp, by simp⟩
    · omega
    · obtain ⟨pieces, hout, hflat, hpieces, hmany⟩ := ih _ hlt p' held' hroom (hcount ▸ hfull) rfl
      refine ⟨data :: pieces, .piece hread hne hout, ?_, ?_, ?_⟩
      · rw [List.flatten_cons, hdel]
        exact (List.prefix_append_right_inj data).mpr hflat
      · simpa using ⟨⟨hne, hlen⟩, hpieces⟩
      · rw [List.length_cons]
        omega

end SendProcess

namespace BtrfsSendIterator

variable {capacity : ℕ}

theorem calls_done (n : ℕ) (it : BtrfsSendIterator) (h : it.done = true) :
    calls capacity n it = .ok (List.replicate n none) := by
  induction n with
  | zero => rfl
  | succ n ih =>
    rw [calls, next, if_pos h]
    simp only [ih, List.replicate_succ]
    rfl

theorem next_piece {p p' : SendProcess} {held held' data : Bytes} {offset : ℕ}
    (h : p.read capacity held = .ok (.ok data, p', held')) (hne : data ≠ []) :
    next capacity ⟨p, held, offset, false⟩ = .ok (some (.ok (.stdoutBytes data offset)),
      ⟨p', held', offset + data.length, false⟩) := by
  obtain ⟨b, data, rfl⟩ := List.exists_cons_of_ne_nil hne
  rw [next, if_neg (by simp)]
  simp only [h]

/-- The last item is given and ends the iterator. -/
theorem next_last {p : SendProcess} {held : Bytes} {last : Except BbkarError BtrfsSendChunk}
    (h : Reads capacity p held [] (.ok last)) (offset : ℕ) :
    ∃ it, next capacity ⟨p, held, offset, false⟩ = .ok (some last, it) ∧ it.done = true := by
  cases h with
  | @eof _ p' _ held' hread =>
    refine ⟨⟨p', held', offset, true⟩, ?_, rfl⟩
    rw [next, if_neg (by simp)]
    simp only [hread]
  | @error _ p' _ held' _ hread =>
    refine ⟨⟨p', held', offset, true⟩, ?_, rfl⟩
    rw [next, if_neg (by simp)]
    simp only [hread]

theorem next_hangs {p : SendProcess} {held : Bytes} {halt : Halt}
    (h : Reads capacity p held [] (.error halt)) (offset : ℕ) :
    next capacity ⟨p, held, offset, false⟩ = .error halt := by
  cases h with
  | hangs hread =>
    rw [next, if_neg (by simp)]
    simp only [hread]

theorem take_append_replicate {α : Type} (xs : List α) (a : α) (n : ℕ) :
    (xs ++ List.replicate (n + 1) a).take n = (xs ++ List.replicate n a).take n := by
  rw [List.replicate_succ', ← List.append_assoc, List.take_append_of_le_length (by simp)]

/-- Calling again and again gives the pieces, the last item and then nothing. -/
theorem calls_eq {p : SendProcess} {held : Bytes} {pieces : List Bytes}
    {last : Except BbkarError BtrfsSendChunk} (h : Reads capacity p held pieces (.ok last))
    (n offset : ℕ) :
    calls capacity n ⟨p, held, offset, false⟩ =
      .ok (((atOffsets offset pieces ++ [last]).map some ++ List.replicate n none).take n) := by
  induction pieces generalizing p held n offset with
  | nil =>
    cases n with
    | zero => rfl
    | succ n =>
      obtain ⟨it, hnext, hdone⟩ := next_last h offset
      rw [calls, hnext]
      simp [calls_done n it hdone, atOffsets, List.replicate_succ', Except.map]
  | cons data pieces ih =>
    cases n with
    | zero => rfl
    | succ n =>
      cases h with
      | piece hread hne hrest =>
        rw [calls, next_piece hread hne]
        simp only [ih hrest, atOffsets, List.cons_append, List.map_cons, List.take_succ_cons,
          take_append_replicate, Except.map]

/-- Calling again and again gives the pieces, and then no answer. -/
theorem calls_hang {p : SendProcess} {held : Bytes} {pieces : List Bytes} {halt : Halt}
    (h : Reads capacity p held pieces (.error halt)) (n offset : ℕ) :
    calls capacity n ⟨p, held, offset, false⟩ =
      if n ≤ pieces.length then .ok (((atOffsets offset pieces).map some).take n)
      else .error halt := by
  induction pieces generalizing p held n offset with
  | nil =>
    cases n with
    | zero => rfl
    | succ n =>
      rw [calls, next_hangs h]
      simp
  | cons data pieces ih =>
    cases n with
    | zero => rfl
    | succ n =>
      cases h with
      | piece hread hne hrest =>
        rw [calls, next_piece hread hne]
        simp only [ih hrest, List.length_cons, Nat.add_le_add_iff_right]
        split_ifs <;> simp [atOffsets, Except.map]

theorem collect_done (fuel : ℕ) (it : BtrfsSendIterator) (h : it.done = true) :
    collect capacity fuel it = .ok [] := by
  cases fuel with
  | zero => rfl
  | succ fuel => rw [collect, next, if_pos h]

theorem collect_eq {p : SendProcess} {held : Bytes} {pieces : List Bytes}
    {last : BR (Except BbkarError BtrfsSendChunk)} (h : Reads capacity p held pieces last)
    {fuel : ℕ} (hfuel : pieces.length < fuel) (offset : ℕ) :
    collect capacity fuel ⟨p, held, offset, false⟩ =
      last.map fun last => atOffsets offset pieces ++ [last] := by
  obtain ⟨fuel, rfl⟩ := Nat.exists_eq_add_of_lt hfuel
  induction pieces generalizing p held fuel offset with
  | nil =>
    rw [List.length_nil, Nat.zero_add, collect]
    cases last with
    | error halt =>
      rw [next_hangs h]
      rfl
    | ok last =>
      obtain ⟨it, hnext, hdone⟩ := next_last h offset
      rw [hnext]
      simp only [collect_done fuel it hdone]
      rfl
  | cons data pieces ih =>
    cases h with
    | piece hread hne hrest =>
      rw [List.length_cons, collect, next_piece hread hne]
      dsimp only
      rw [Nat.add_right_comm, ih hrest _ fuel (by omega)]
      cases last <;> rfl

end BtrfsSendIterator

namespace SendProcess

variable {capacity : ℕ}

/-- The stream of a process that never waits for its error output to be read. -/
theorem stream_eq {p : SendProcess} (h : p.NeverBlocks capacity) :
    ∃ pieces, pieces.flatten = delivered p.outputs ∧
      (∀ data ∈ pieces, data ≠ [] ∧ data.length ≤ readBufSize) ∧
      p.stream capacity = .ok (atOffsets 0 pieces ++ [p.last []]) ∧
      Reads capacity p [] pieces (.ok (p.last [])) := by
  obtain ⟨pieces, hreads, hflat, hpieces, hcount⟩ :=
    p.exists_reads [] ((Nat.zero_add _).trans_le h)
  refine ⟨pieces, hflat, hpieces, ?_, hreads⟩
  exact BtrfsSendIterator.collect_eq hreads (by omega) 0

/-- The stream of another process never ends. -/
theorem stream_hangs {p : SendProcess} (h : ¬ p.NeverBlocks capacity) :
    ∃ pieces, pieces.flatten <+: delivered p.outputs ∧
      (∀ data ∈ pieces, data ≠ [] ∧ data.length ≤ readBufSize) ∧
      p.stream capacity = .error .diverges ∧
      Reads capacity p [] pieces (.error .diverges) := by
  obtain ⟨pieces, hreads, hflat, hpieces, hcount⟩ :=
    p.exists_reads_hang [] (Nat.zero_le capacity)
      ((Nat.lt_of_not_le h).trans_eq (Nat.zero_add _).symm)
  refine ⟨pieces, hflat, hpieces, ?_, hreads⟩
  exact BtrfsSendIterator.collect_eq hreads (by omega) 0

end SendProcess

/-- Where the error output that a process writes before its standard output ends fits the
pipe, its iterator gives all that was written to the standard output, however that pipe cuts
it: pieces that are not empty and fit the buffer, each with the number of bytes before it, and
then one item for the error of a read or for the exit. After that it gives nothing, however
often it is asked. Where the error output does not fit, some pieces come, and the next call
never returns. -/
theorem sendIterator_items (capacity : ℕ) (p : SendProcess) :
    (p.NeverBlocks capacity → ∃ pieces,
      pieces.flatten = SendProcess.delivered p.outputs ∧
      (∀ data ∈ pieces, data ≠ [] ∧ data.length ≤ readBufSize) ∧
      p.stream capacity = .ok (atOffsets 0 pieces ++ [p.last []]) ∧
      ∀ n, BtrfsSendIterator.calls capacity n (.new p) =
        .ok (((atOffsets 0 pieces ++ [p.last []]).map some ++ List.replicate n none).take n)) ∧
    (¬ p.NeverBlocks capacity → ∃ pieces,
      pieces.flatten <+: SendProcess.delivered p.outputs ∧
      (∀ data ∈ pieces, data ≠ [] ∧ data.length ≤ readBufSize) ∧
      p.stream capacity = .error .diverges ∧
      ∀ n, BtrfsSendIterator.calls capacity n (.new p) =
        if n ≤ pieces.length then .ok (((atOffsets 0 pieces).map some).take n)
        else .error .diverges) := by
  constructor
  · intro h
    obtain ⟨pieces, hflat, hpieces, hstream, hreads⟩ := SendProcess.stream_eq h
    exact ⟨pieces, hflat, hpieces, hstream, fun n => BtrfsSendIterator.calls_eq hreads n 0⟩
  · intro h
    obtain ⟨pieces, hflat, hpieces, hstream, hreads⟩ := SendProcess.stream_hangs h
    exact ⟨pieces, hflat, hpieces, hstream, fun n => BtrfsSendIterator.calls_hang hreads n 0⟩

/-! ## What is sent on -/

theorem stdoutPieces_atOffsets (offset : ℕ) (pieces : List Bytes) (rest : SendStream) :
    stdoutPieces (atOffsets offset pieces ++ rest) = pieces ++ stdoutPieces rest := by
  induction pieces generalizing offset with
  | nil => rfl
  | cons data pieces ih => simp [atOffsets, stdoutPieces, ih]

theorem ok_of_mem_atOffsets {offset : ℕ} {pieces : List Bytes}
    {item : Except BbkarError BtrfsSendChunk} (h : item ∈ atOffsets offset pieces) :
    ∃ chunk, item = .ok chunk := by
  induction pieces generalizing offset with
  | nil => simp [atOffsets] at h
  | cons data pieces ih =>
    rcases List.mem_cons.mp h with rfl | h
    · exact ⟨_, rfl⟩
    · exact ih h

namespace SendProcess

variable {capacity : ℕ}

/-- The last item carries no data. -/
theorem stdoutPieces_last (p : SendProcess) (held : Bytes) : stdoutPieces [p.last held] = [] := by
  unfold last wait
  cases readError p.outputs with
  | some e => rfl
  | none =>
    cases p.exit with
    | error e => rfl
    | ok code => rfl

/-- A process whose stream there is never blocks. -/
theorem NeverBlocks.of_stream {p : SendProcess} {s : SendStream}
    (h : p.stream capacity = .ok s) : p.NeverBlocks capacity := by
  by_contra hblocks
  obtain ⟨pieces, -, -, hstream, -⟩ := stream_hangs hblocks
  rw [hstream] at h
  cases h

/-- A stream carries the bytes the process has written, cut somehow. -/
theorem stdoutPieces_stream {p : SendProcess} {s : SendStream}
    (h : p.stream capacity = .ok s) : (stdoutPieces s).flatten = delivered p.outputs := by
  obtain ⟨pieces, hflat, -, hstream, -⟩ := stream_eq (.of_stream h)
  obtain rfl := Except.ok.inj (h.symm.trans hstream)
  rw [stdoutPieces_atOffsets, stdoutPieces_last, List.append_nil, hflat]

/-- It has no error just when every read succeeds and the exit can be waited for. -/
theorem clean_stream_iff {p : SendProcess} {s : SendStream} (h : p.stream capacity = .ok s) :
    Clean s ↔ readError p.outputs = none ∧ ∃ code, p.exit = .ok code := by
  obtain ⟨pieces, -, -, hstream, -⟩ := stream_eq (.of_stream h)
  have hlast : Clean s ↔ ∀ e, p.last [] ≠ .error e := by
    rw [Except.ok.inj (h.symm.trans hstream)]
    constructor
    · exact fun h e he => h e (by simp [he])
    · intro h e he
      rcases List.mem_append.mp he with he | he
      · obtain ⟨chunk, hchunk⟩ := ok_of_mem_atOffsets he
        cases hchunk
      · exact h e (List.mem_singleton.mp he).symm
  rw [hlast]
  unfold last wait
  cases readError p.outputs with
  | some e => simp
  | none => cases p.exit <;> simp [Except.map]

end SendProcess

end Bbkar
