import Quilon.Library.Utf8Prefix
import Quilon.Runtime.Indexing

/-!
# Reading a file in chunks

`stream_file` and `split_chunk` of `quilon-rt/src/io.rs`, behind `@streamFile`: the file is read a
buffer at a time, and its callback is handed the text that has arrived, less the last cluster of it,
which more bytes could still extend.

A read that would block or is interrupted is made again, so what the reads give is the pieces of the
file, then its end or an error.  Counts of bytes are natural numbers, until `asF64` makes the answer
of one.
-/

namespace Quilon.Streaming

open Utf8 Text

/-- A `Num` as a chunk size: what `format_num` gives for it, and its value if it is a whole number. -/
structure ChunkSize where
  shown : String
  whole : Option Int

/-- The `QnResult` of `@streamFile`. -/
inductive Answer (Num : Type*) where
  | okNum (n : Num)
  | notOk (message : String)

/-- What the reads of an open file give, one after another. -/
structure Reads where
  pieces : List (List UInt8)
  /-- the error of the read behind the pieces; the file ends there if it makes none -/
  failure : Option String

/-- `read_once` -/
def readOnce (reads : Reads) : Except String (List UInt8 × Reads) :=
  match reads.pieces, reads.failure with
  | piece :: pieces, _ => .ok (piece, { reads with pieces := pieces })
  | [], none => .ok ([], reads)
  | [], some error => .error error

/-- The loop between two reads.  It keeps `carry`, `delivered` and the callback's `state`; the rest is
what happened so far. -/
structure Stream (σ : Type*) where
  reads : Reads
  carry : List UInt8
  delivered : Nat
  state : σ
  handed : List QnSlice
  received : List UInt8
  ended : Bool
  failed : Bool

namespace Stream

variable {σ : Type*}

def start (reads : Reads) (state : σ) : Stream σ :=
  ⟨reads, [], 0, state, [], [], false, false⟩

/-- `carry.extend_from_slice` -/
def receive (stream : Stream σ) (reads : Reads) (piece : List UInt8) : Stream σ :=
  { stream with
    reads := reads, carry := stream.carry ++ piece, received := stream.received ++ piece
    ended := piece.isEmpty }

/-- The chunk is handed over, and drained from the carry. -/
def hand (stream : Stream σ) (cut : Nat) (chunk : QnSlice) (state : σ) : Stream σ :=
  { stream with
    carry := stream.carry.drop cut, delivered := stream.delivered + cut, state := state
    handed := stream.handed ++ [chunk] }

@[simp] theorem hand_ended (stream : Stream σ) (cut : Nat) (chunk : QnSlice) (state : σ) :
    (stream.hand cut chunk state).ended = stream.ended := rfl

/-- The bytes of the chunks so far. -/
def chunks (stream : Stream σ) : List (List UInt8) := stream.handed.map QnSlice.content

end Stream

variable (unicode : Unicode)

/-- `split_chunk`.  `error_len` is `None` where the bytes end within a character. -/
def splitChunk (buffer : List UInt8) (atEof : Bool) : Except String Nat :=
  let (valid, left) := decodePrefix buffer
  if left = [] ∨ (!atEof && isIncomplete left) = true then
    if atEof then .ok (byteLength valid)
    else .ok ((graphemeStarts unicode valid).getLast?.getD 0)
  else .error "core.io.@streamFile read bytes that are not valid UTF-8"

variable {σ Num : Type*} (asF64 : Nat → Num) (path : String) (onChunk : QnSlice → σ → Bool × σ)

/-- A turn of the loop, with the answer if it is the last one. -/
def turn (stream : Stream σ) : Option (Answer Num) × Stream σ :=
  match readOnce stream.reads with
  | .error error =>
    (some (.notOk ("core.io.@streamFile failed to read " ++ path ++ ": " ++ error)),
      { stream with failed := true })
  | .ok (piece, reads) =>
    let stream := stream.receive reads piece
    if (stream.ended && stream.carry.isEmpty) = true then
      (some (.okNum (asF64 stream.delivered)), stream)
    else
      match splitChunk unicode stream.carry stream.ended with
      | .error message => (some (.notOk message), stream)
      | .ok cut =>
        if cut = 0 then (none, stream)
        else
          let chunk := allocText unicode (stream.carry.take cut)
          let (keepGoing, state) := onChunk chunk stream.state
          let stream := stream.hand cut chunk state
          if (stream.ended || !keepGoing) = true then
            (some (.okNum (asF64 stream.delivered)), stream)
          else (none, stream)

/-- At most so many turns. -/
def run : Nat → Stream σ → Option (Answer Num × Stream σ)
  | 0, _ => none
  | turns + 1, stream =>
    match turn unicode asF64 path onChunk stream with
    | (some answer, stream) => some (answer, stream)
    | (none, stream) => run turns stream

/-- `usize::MAX` -/
def usizeMax : Nat := 2 ^ 64 - 1

/-- `chunk_size as usize`, unless the size is refused. -/
def bufferSize (size : ChunkSize) : Option Nat :=
  match size.whole with
  | none => none
  | some n => if n ≤ 0 then none else some (min n.toNat usizeMax)

/-- `stream_file`, where `reserves` tells which buffers can be allocated and `opened` is what opening
the file gives. -/
def streamFile (size : ChunkSize) (reserves : Nat → Bool) (opened : Except String Reads) (state : σ)
    (turns : Nat) : Option (Answer Num × Stream σ) :=
  let refused message := some (Answer.notOk message, Stream.start ⟨[], none⟩ state)
  match bufferSize size with
  | none =>
    refused ("core.io.@streamFile: chunkSize must be a positive whole number, got " ++ size.shown)
  | some chunkSize =>
    if reserves chunkSize = false then
      refused ("core.io.@streamFile: cannot allocate a " ++ toString chunkSize ++ "-byte chunk buffer")
    else
      match opened with
      | .error error => refused ("core.io.@streamFile failed to open " ++ path ++ ": " ++ error)
      | .ok reads => run unicode asF64 path onChunk turns (Stream.start reads state)

end Quilon.Streaming
