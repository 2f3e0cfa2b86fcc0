import Quilon.Library.BinarySearch
import Quilon.Runtime.Indexing

/-!
# Positions in a source text

The line table of `src/source_map.rs` and the translation between byte offsets and the positions of the
Language Server Protocol: lines from zero on, and columns in UTF-16 code units.

Texts are lists of characters, offsets are natural numbers, positions are the `u32` values of the source.
A range outside the text or within a character would end the program (`none`).
-/

namespace Quilon.SourceMap

open Text (byteLength strRange)

/-- Behind which offsets a line begins: `match_indices('\n')`, and one byte further. -/
def newlineEnds (offset : Nat) : List Char → List Nat
  | [] => []
  | c :: rest =>
    if c = '\n' then (offset + 1) :: newlineEnds (offset + 1) rest
    else newlineEnds (offset + c.utf8Size) rest

structure LineIndex where
  starts : List Nat

namespace LineIndex

def new (text : List Char) : LineIndex := ⟨0 :: newlineEnds 0 text⟩

/-- `line_at`: the line from one on, and where it begins. -/
def lineAt (lines : LineIndex) (offset : Nat) : Option (Nat × Nat) := do
  let line ←
    match binarySearch lines.starts offset with
    | .ok exact => some exact
    | .error 0 => none
    | .error (before + 1) => some before
  let start ← lines.starts[line]?
  return (line + 1, start)

end LineIndex

/-- `str::is_char_boundary` -/
def isCharBoundary (text : List Char) (index : Nat) : Bool := (indexAt Char.utf8Size text index).isSome

/-- The loop of `floor_char_boundary`. -/
def floorFrom (text : List Char) : Nat → Nat
  | 0 => 0
  | index + 1 => if isCharBoundary text (index + 1) then index + 1 else floorFrom text index

def floorCharBoundary (text : List Char) (index : Nat) : Nat := floorFrom text (min index (byteLength text))

/-- `char::len_utf16` -/
def lenUtf16 (c : Char) : Nat := if c.toNat < 0x10000 then 1 else 2

def utf16Length (text : List Char) : Nat := extent lenUtf16 text

/-- `DocumentPositions::position_utf16` -/
def positionUtf16 (text : List Char) (byteOffset : Nat) : Option (UInt32 × UInt32) := do
  let offset := floorCharBoundary text byteOffset
  let (lineOneBased, lineStart) ← (LineIndex.new text).lineAt offset
  let before ← strRange text lineStart offset
  return (UInt32.ofNat (lineOneBased - 1), UInt32.ofNat (utf16Length before))

/-- The loop of `byte_offset`, behind `offset`. -/
def offsetInLine (offset remaining : Nat) : List Char → Option Nat
  | [] => none
  | c :: rest =>
    if c = '\n' ∨ remaining = 0 then some offset
    else offsetInLine (offset + c.utf8Size) (remaining - lenUtf16 c) rest

/-- `DocumentPositions::byte_offset` -/
def byteOffset (text : List Char) (line character : UInt32) : Option Nat :=
  match (LineIndex.new text).starts[line.toNat]? with
  | none => some (byteLength text)
  | some lineStart => do
    let rest ← strRange text lineStart (byteLength text)
    return (offsetInLine lineStart character.toNat rest).getD (byteLength text)

end Quilon.SourceMap
