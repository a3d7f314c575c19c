import Mathlib.Data.List.Basic

/-!
# Incremental hashes and streaming compressors

Both take their input in pieces of any length. The digest depends on the concatenation of
the pieces only. A compressor hands over its output in buffers, some after each piece and
the rest at the end, and decompression of all buffers gives back all pieces.
-/
namespace Bbkar.Codec

abbrev Bytes := List UInt8

structure IncrementalHash where
  State : Type
  init : State
  update : State → Bytes → State
  finalize : State → Bytes
  update_nil : ∀ s, update s [] = s
  update_append : ∀ s a b, update (update s a) b = update s (a ++ b)

namespace IncrementalHash

def digest (H : IncrementalHash) (bytes : Bytes) : Bytes := H.finalize (H.update H.init bytes)

/-- Keeps everything it was given. -/
def keepAll : IncrementalHash where
  State := Bytes
  init := []
  update := fun s piece => s ++ piece
  finalize := id
  update_nil := List.append_nil
  update_append := List.append_assoc

end IncrementalHash

structure StreamEncoder where
  State : Type
  init : State
  feed : State → Bytes → State × List Bytes
  finish : State → List Bytes

namespace StreamEncoder

/-- The buffers handed over for the remaining pieces. -/
def encodeFrom (E : StreamEncoder) : E.State → List Bytes → List Bytes
  | st, [] => E.finish st
  | st, piece :: pieces => (E.feed st piece).2 ++ E.encodeFrom (E.feed st piece).1 pieces

def encode (E : StreamEncoder) (pieces : List Bytes) : List Bytes := E.encodeFrom E.init pieces

end StreamEncoder

/-- An encoder with a decoder that inverts it, however the input was cut. -/
structure StreamCodec extends StreamEncoder where
  decompress : Bytes → Option Bytes
  decompress_encode : ∀ pieces,
    decompress (toStreamEncoder.encode pieces).flatten = some pieces.flatten

namespace StreamCodec

/-- Hands over every piece as it is. -/
def identity : StreamCodec where
  State := Unit
  init := ()
  feed := fun _ piece => ((), [piece])
  finish := fun _ => []
  decompress := some
  decompress_encode := by
    intro pieces
    unfold StreamEncoder.encode
    induction pieces with
    | nil => rfl
    | cons piece pieces ih =>
      simp only [StreamEncoder.encodeFrom, List.flatten_append, List.flatten_cons,
        List.flatten_nil, List.append_nil, Option.some.injEq] at ih ⊢
      rw [ih]

/-- Hands over every byte in a buffer of its own. -/
def bytewise : StreamCodec where
  State := Unit
  init := ()
  feed := fun _ piece => ((), piece.map fun b => [b])
  finish := fun _ => []
  decompress := some
  decompress_encode := by
    intro pieces
    unfold StreamEncoder.encode
    induction pieces with
    | nil => rfl
    | cons piece pieces ih =>
      simp only [StreamEncoder.encodeFrom, List.flatten_append, List.flatten_cons,
        Option.some.injEq] at ih ⊢
      rw [ih, List.append_cancel_right_eq]
      induction piece with
      | nil => rfl
      | cons b piece ih' => simpa using ih'

theorem bytewise_buffers (pieces : List Bytes) :
    ∀ b ∈ bytewise.encode pieces, b.length = 1 := by
  unfold StreamEncoder.encode
  induction pieces with
  | nil => exact fun b hb => absurd hb (by simp [StreamEncoder.encodeFrom, bytewise])
  | cons piece pieces ih =>
    intro b hb
    rw [StreamEncoder.encodeFrom] at hb
    rcases List.mem_append.mp hb with hb | hb
    · obtain ⟨x, -, rfl⟩ := List.mem_map.mp hb
      rfl
    · exact ih b hb

end StreamCodec

end Bbkar.Codec
