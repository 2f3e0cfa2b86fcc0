import Quilon.Library.Offsets
import Quilon.Runtime.Text

/-!
# Indices into texts

`__text_slice`, `__text_at` and the search of `quilon-rt/src/text.rs`, with the byte offsets they form:
each has a path for texts that are ASCII by their header, where an offset is an index, and one that
walks the clusters.  Cutting outside a text or within a character would end the program (`none`).
-/

namespace Quilon.Text

open Utf8

/-- The bytes a text takes. -/
def byteLength (text : List Char) : Nat := extent Char.utf8Size text

/-- `&bytes[lo..hi]` -/
def byteRange (bytes : List UInt8) (lo hi : Nat) : Option (List UInt8) :=
  if lo ≤ hi ∧ hi ≤ bytes.length then some ((bytes.take hi).drop lo) else none

/-- `&text[lo..hi]`, at byte offsets. -/
def strRange (text : List Char) (lo hi : Nat) : Option (List Char) := do
  let first ← indexAt Char.utf8Size text lo
  let last ← indexAt Char.utf8Size text hi
  if first ≤ last then some ((text.take last).drop first) else none

/-- `str::find`: how many characters stand before the first occurrence. -/
def strFind (text sub : List Char) : Option Nat :=
  if sub = [] then some 0 else firstIndexOf sub text

variable (unicode : Unicode)

/-- The offsets of `str::grapheme_indices`. -/
def graphemeStarts (text : List Char) : List Nat := starts byteLength 0 (graphemesOf unicode text)

/-! ### The two paths of each operation -/

def sliceAscii (slice : QnSlice) (start stop : Int) : Option QnSlice :=
  let lo := clamp start slice.content.length
  let hi := clamp stop slice.content.length
  if hi ≤ lo then some QnSlice.empty
  else (byteRange slice.content lo hi).map fun bytes => allocTextWithCount bytes (hi - lo)

def sliceWalking (slice : QnSlice) (start stop : Int) : Option QnSlice :=
  let text := textStr slice
  let bounds := graphemeStarts unicode text ++ [byteLength text]
  let lo := clamp start (bounds.length - 1)
  let hi := clamp stop (bounds.length - 1)
  if hi ≤ lo then some QnSlice.empty
  else do
    let first ← bounds[lo]?
    let last ← bounds[hi]?
    let part ← strRange text first last
    return allocTextWithCount (encode part) (hi - lo)

/-- `__text_slice` -/
def textSliceChecked (slice : QnSlice) (start stop : Int) : Option QnSlice :=
  if (textHeaderOf slice).flags.asciiAligned then sliceAscii slice start stop
  else sliceWalking unicode slice start stop

def atAscii (slice : QnSlice) (index : Int) : Option QnSlice :=
  if (slice.content.length : Int) ≤ index then some QnSlice.empty
  else (byteRange slice.content index.toNat (index.toNat + 1)).map fun bytes =>
    allocTextWithCount bytes 1

def atWalking (slice : QnSlice) (index : Int) : Option QnSlice :=
  match (graphemesOf unicode (textStr slice))[index.toNat]? with
  | some grapheme => some (allocTextWithCount (encode grapheme) 1)
  | none => some QnSlice.empty

/-- `__text_at` -/
def textAtChecked (slice : QnSlice) (index : Int) : Option QnSlice :=
  if index < 0 then some QnSlice.empty
  else if (textHeaderOf slice).flags.asciiAligned then atAscii slice index
  else atWalking unicode slice index

def findAscii (hay sub : QnSlice) (start : Int) : Option Int := do
  let text := textStr hay
  let startByte := clamp start hay.content.length
  let rest ← strRange text startByte (byteLength text)
  match strFind rest (textStr sub) with
  | none => return -1
  | some characters => return ((startByte + byteLength (rest.take characters) : Nat) : Int)

def findWalking (hay sub : QnSlice) (start : Int) : Option Int := do
  let text := textStr hay
  let startByte :=
    (graphemeStarts unicode text)[clamp start (textHeaderOf hay).count.toNat]?.getD (byteLength text)
  let rest ← strRange text startByte (byteLength text)
  match strFind rest (textStr sub) with
  | none => return -1
  | some characters => do
    let front ← strRange text 0 (startByte + byteLength (rest.take characters))
    return countOf unicode front

/-- `text_find_from` -/
def textFindFrom (hay sub : QnSlice) (start : Int) : Option Int :=
  if (textHeaderOf hay).flags.asciiAligned then findAscii hay sub start
  else findWalking unicode hay sub start

end Quilon.Text
