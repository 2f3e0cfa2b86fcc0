import Quilon.Library.GraphemeSeams
import Quilon.Library.Utf8
import Quilon.Runtime.Http
import Mathlib.Algebra.Ring.Int.Defs

/-!
# Texts and the headers they carry

`quilon-rt/src/mem.rs` and `quilon-rt/src/text.rs`: a text is its bytes behind a header with the
number of its grapheme clusters and four flags, which every operation writes for what it makes.

Counts and lengths are integers; a text's length is that of a byte list.
-/

namespace Quilon.Text

open Utf8 Http

/-- `GRAPHEME_MERGE_FLOOR` -/
def graphemeMergeFloor : Char := '\u0300'

/-- The character tables the operations read: those of `unicode-segmentation`, and the case mappings
of the standard library. -/
structure Unicode where
  classOf : Char → GraphemeClass
  classOf_cr (c : Char) : classOf c = .cr ↔ c = '\r'
  classOf_lf (c : Char) : classOf c = .lf ↔ c = '\n'
  /-- What stands below U+0300 never extends, pairs or prepends. -/
  below_floor (c : Char) (h : c < graphemeMergeFloor) :
    classOf c ∈ [GraphemeClass.cr, .lf, .control, .pictographic, .other]
  toUppercase : List Char → List Char
  toLowercase : List Char → List Char

structure Flags where
  asciiAligned : Bool
  validUtf8 : Bool
  literal : Bool
  noBidiControls : Bool
deriving DecidableEq

structure Header where
  count : Int
  flags : Flags
deriving DecidableEq

/-- A `QnSlice` that holds a text: the header behind `data`, unless that is null, and the bytes past
it. -/
structure QnSlice where
  data : Option Header
  content : List UInt8
  empty_of_null : data = none → content = []
deriving DecidableEq

namespace QnSlice

def empty : QnSlice := ⟨none, [], fun _ => rfl⟩

end QnSlice

/-- `inherited_flags` -/
def inheritedFlags (ascii noBidi : Bool) : Flags := ⟨ascii, true, false, noBidi⟩

/-- `text_header_of` -/
def textHeaderOf (slice : QnSlice) : Header :=
  slice.data.getD ⟨0, ⟨true, true, false, true⟩⟩

/-- `from_utf8_unchecked`, of which nothing is said where the bytes are ill-formed. -/
def fromUtf8Unchecked (bytes : List UInt8) : List Char := lossy bytes

/-- `text_str` -/
def textStr (slice : QnSlice) : List Char :=
  if (textHeaderOf slice).flags.validUtf8 then fromUtf8Unchecked slice.content
  else lossy slice.content

def isAsciiGraphemeAligned (bytes : List UInt8) : Bool :=
  bytes.all (· < 128) && !bytes.contains 13

/-- `bidi::is_bidi_control` -/
def isBidiControl (c : Char) : Bool :=
  c ∈ ['\u202A', '\u202B', '\u202D', '\u202E', '\u202C', '\u2066', '\u2067', '\u2068', '\u2069',
    '\u200E', '\u200F', '\u061C']

variable (unicode : Unicode)

/-- `str::graphemes` -/
def graphemesOf (text : List Char) : List (List Char) := graphemes unicode.classOf text

def countOf (text : List Char) : Int := (graphemesOf unicode text).length

/-- `text_header` -/
def textHeader (bytes : List UInt8) : Header :=
  if isAsciiGraphemeAligned bytes then ⟨bytes.length, ⟨true, true, false, true⟩⟩
  else
    let validUtf8 := (decode? bytes).isSome
    let text := (decode? bytes).getD (lossy bytes)
    if text.all (· < graphemeMergeFloor) && !text.contains '\r' then
      ⟨text.length, ⟨false, validUtf8, false, true⟩⟩
    else ⟨countOf unicode text, ⟨false, validUtf8, false, !text.any isBidiControl⟩⟩

def literalHeader (bytes : List UInt8) : Header :=
  let header := textHeader unicode bytes
  { header with flags := { header.flags with literal := true } }

/-- `alloc_text_with_header`, and `alloc_text_buffer` once its content is filled in. -/
def allocTextWithHeader (bytes : List UInt8) (count : Int) (flags : Flags) : QnSlice :=
  if bytes = [] then QnSlice.empty else ⟨some ⟨count, flags⟩, bytes, fun h => by cases h⟩

def allocTextWithCount (bytes : List UInt8) (count : Int) : QnSlice :=
  allocTextWithHeader bytes count
    (if isAsciiGraphemeAligned bytes then ⟨true, true, false, true⟩
      else ⟨false, true, false, false⟩)

def allocText (bytes : List UInt8) : QnSlice :=
  let header := textHeader unicode bytes
  allocTextWithHeader bytes header.count header.flags

/-- The constant a literal is compiled to. -/
def literalText (bytes : List UInt8) : QnSlice :=
  ⟨some (literalHeader unicode bytes), bytes, fun h => by cases h⟩

/-! ### Concatenation -/

/-- `chars().next_back().unwrap_or('\0')` -/
def lastChar (text : List Char) : Char := text.getLast?.getD '\x00'

/-- `chars().next().unwrap_or('\0')` -/
def firstChar (text : List Char) : Char := text.head?.getD '\x00'

/-- `graphemes(true).next_back().unwrap_or("")` -/
def lastGrapheme (text : List Char) : List Char := (graphemesOf unicode text).getLast?.getD []

/-- `graphemes(true).next().unwrap_or("")` -/
def firstGrapheme (text : List Char) : List Char := (graphemesOf unicode text).head?.getD []

/-- Two characters that can never stand in one cluster. -/
def neverMerges (last first : Char) : Bool :=
  last < graphemeMergeFloor && first < graphemeMergeFloor && !(last == '\r' && first == '\n')

/-- `seam_corrected` -/
def seamCorrected (left : List Char) (lCount : Int) (lAscii : Bool) (right : List Char)
    (rCount : Int) (rAscii : Bool) : Int × Bool :=
  if left = [] then (rCount, rAscii)
  else if right = [] then (lCount, lAscii)
  else if neverMerges (lastChar left) (firstChar right) then (lCount + rCount, lAscii && rAscii)
  else
    let leftLast := lastGrapheme unicode left
    let rightFirst := firstGrapheme unicode right
    let windowCount := countOf unicode (leftLast ++ rightFirst)
    (lCount + rCount - 2 + windowCount,
      lAscii && rAscii && !(leftLast == ['\r'] && rightFirst == ['\n']))

/-- `concat_header` -/
def concatHeader (left : QnSlice) (lCount : Int) (lAscii : Bool) (right : QnSlice) (rCount : Int)
    (rAscii : Bool) : Int × Bool :=
  if left.content = [] then (rCount, rAscii)
  else if right.content = [] then (lCount, lAscii)
  else if lAscii && rAscii then (lCount + rCount, true)
  else seamCorrected unicode (textStr left) lCount lAscii (textStr right) rCount rAscii

/-- `text_is_ascii` of a header that counts, and true of an empty text. -/
def isAscii (slice : QnSlice) : Bool :=
  slice.content = [] || (textHeaderOf slice).flags.asciiAligned

def hasNoBidiControls (slice : QnSlice) : Bool :=
  slice.content = [] || (textHeaderOf slice).flags.noBidiControls

/-- `__text_concat` -/
def textConcat (left right : QnSlice) : QnSlice :=
  let (count, ascii) := concatHeader unicode left (textHeaderOf left).count (isAscii left)
    right (textHeaderOf right).count (isAscii right)
  let noBidi := ascii || (hasNoBidiControls left && hasNoBidiControls right)
  allocTextWithHeader (left.content ++ right.content) count (inheritedFlags ascii noBidi)

/-! ### Joining -/

/-- The closure `fold` of `join_count_with_seams`: the clusters so far, and the last of them. -/
def foldSeam (acc : Option (Int × List Char)) (text : List Char) (count : Int) :
    Option (Int × List Char) :=
  if text = [] then acc
  else
    match acc with
    | none => some (count, lastGrapheme unicode text)
    | some (accCount, accTrailing) =>
      if neverMerges (lastChar accTrailing) (firstChar text) then
        some (accCount + count, lastGrapheme unicode text)
      else
        let window := accTrailing ++ firstGrapheme unicode text
        let windowCount := countOf unicode window
        some (accCount + count - 2 + windowCount,
          if windowCount = 1 then window else lastGrapheme unicode text)

/-- `join_count_with_seams`, over the pieces with the separator between them. -/
def joinCountWithSeams (pieces : List QnSlice) : Int :=
  let acc := pieces.foldl
    (fun acc piece => foldSeam unicode acc (textStr piece) (textHeaderOf piece).count) none
  (acc.map (·.1)).getD 0

/-- `__text_join` -/
def textJoin (parts : List QnSlice) (separator : QnSlice) : QnSlice :=
  let pieces := parts.intersperse separator
  let ascii := pieces.all isAscii
  let noBidi := pieces.all hasNoBidiControls
  let count :=
    if ascii then (pieces.map fun piece => (textHeaderOf piece).count).sum
    else joinCountWithSeams unicode pieces
  allocTextWithHeader (pieces.flatMap (·.content)) count (inheritedFlags ascii noBidi)

/-! ### Parts of a text -/

/-- `i64::clamp`, as an index. -/
def clamp (i : Int) (length : Nat) : Nat := (max 0 (min i length)).toNat

/-- `__text_slice` -/
def textSlice (slice : QnSlice) (start stop : Int) : QnSlice :=
  if (textHeaderOf slice).flags.asciiAligned then
    let lo := clamp start slice.content.length
    let hi := clamp stop slice.content.length
    if hi ≤ lo then QnSlice.empty
    else allocTextWithCount ((slice.content.take hi).drop lo) (hi - lo)
  else
    let pieces := graphemesOf unicode (textStr slice)
    let lo := clamp start pieces.length
    let hi := clamp stop pieces.length
    if hi ≤ lo then QnSlice.empty
    else allocTextWithCount (encode ((pieces.take hi).drop lo).flatten) (hi - lo)

/-- `__text_at` -/
def textAt (slice : QnSlice) (index : Int) : QnSlice :=
  if index < 0 then QnSlice.empty
  else if (textHeaderOf slice).flags.asciiAligned then
    match slice.content[index.toNat]? with
    | none => QnSlice.empty
    | some b => allocTextWithCount [b] 1
  else
    match (graphemesOf unicode (textStr slice))[index.toNat]? with
    | some grapheme => allocTextWithCount (encode grapheme) 1
    | none => QnSlice.empty

/-- `text_array` -/
def textArray (parts : List (List Char)) : List QnSlice :=
  parts.map fun part => allocText unicode (encode part)

/-- `__text_graphemes` -/
def textGraphemes (slice : QnSlice) : List QnSlice :=
  textArray unicode (graphemesOf unicode (textStr slice))

/-- `str::split`, with a separator that is not empty; at most `fuel` pieces are cut off. -/
def splitOn (separator : List Char) : Nat → List Char → List (List Char)
  | 0, text => [text]
  | fuel + 1, text =>
    match firstIndexOf separator text with
    | none => [text]
    | some at_ => text.take at_ :: splitOn separator fuel (text.drop (at_ + separator.length))

/-- `__text_split` -/
def textSplit (slice separator : QnSlice) : List QnSlice :=
  if textStr separator = [] then textGraphemes unicode slice
  else
    let hay := textStr slice
    textArray unicode (splitOn (textStr separator) hay.length hay)

/-! ### Replacing -/

/-- `str::replacen`: each piece cut off is followed by `to`. -/
def replaceN (text from_ to_ : List Char) (count : Nat) : List Char :=
  to_.intercalate (splitOn from_ count text)

/-- `str::replace` -/
def replaceEach (text from_ to_ : List Char) : List Char := replaceN text from_ to_ text.length

/-- A `Num` after `f64::trunc`. -/
inductive Truncated where
  | nan
  | infinite (negative : Bool)
  | whole (n : Int)
deriving DecidableEq

inductive ReplaceError where
  | emptyFrom
  | notPositive (count : Truncated)
  | tooFew (count : Truncated) (occurrences : Nat)
deriving DecidableEq

/-- `codes::REPLACE_EMPTY_FROM` and `codes::REPLACE_INVALID_COUNT` -/
def ReplaceError.code : ReplaceError → Nat
  | emptyFrom => 506
  | notPositive _ | tooFew _ _ => 510

def ReplaceError.message (formatNum : Truncated → String) : ReplaceError → String
  | emptyFrom => "replace: `from` must not be empty"
  | notPositive count => "replace: count must be positive, got " ++ formatNum count
  | tooFew count occurrences =>
    "replace: count " ++ formatNum count ++ " exceeds " ++ toString occurrences ++ " occurrences"

/-- `replace_text` -/
def replaceText (hay from_ to_ : List Char) (count : Truncated) : Except ReplaceError (List Char) :=
  let occurrences := (splitOn from_ hay.length hay).length - 1
  if from_ = [] then .error .emptyFrom
  else
    match count with
    | .nan | .infinite true => .error (.notPositive count)
    | .infinite false => .error (.tooFew count occurrences)
    | .whole n =>
      if n < 1 then .error (.notPositive count)
      else if occurrences < n then .error (.tooFew count occurrences)
      else .ok (replaceN hay from_ to_ n.toNat)

/-- `__text_replace`; an error ends the program. -/
def textReplace (slice from_ to_ : QnSlice) (count : Truncated) : Except ReplaceError QnSlice :=
  (replaceText (textStr slice) (textStr from_) (textStr to_) count).map fun result =>
    allocText unicode (encode result)

/-- `__text_replace_all`; an error ends the program. -/
def textReplaceAll (slice from_ to_ : QnSlice) : Except ReplaceError QnSlice :=
  if textStr from_ = [] then .error .emptyFrom
  else .ok (allocText unicode (encode (replaceEach (textStr slice) (textStr from_) (textStr to_))))

/-! ### Trimming and case -/

def textTrimStart (slice : QnSlice) : QnSlice :=
  allocText unicode (encode ((textStr slice).dropWhile isWhitespace))

def textTrimEnd (slice : QnSlice) : QnSlice :=
  allocText unicode (encode ((textStr slice).reverse.dropWhile isWhitespace).reverse)

def textToUpper (slice : QnSlice) : QnSlice :=
  allocText unicode (encode (unicode.toUppercase (textStr slice)))

def textToLower (slice : QnSlice) : QnSlice :=
  allocText unicode (encode (unicode.toLowercase (textStr slice)))

/-! ### Programs -/

/-- What makes texts; the texts it is given stand in the program already. -/
inductive Operation where
  | literal (bytes : List UInt8)
  | received (bytes : List UInt8)
  | concat (left right : QnSlice)
  | join (parts : List QnSlice) (separator : QnSlice)
  | slice (text : QnSlice) (start stop : Int)
  | at (text : QnSlice) (index : Int)
  | graphemes (text : QnSlice)
  | split (text separator : QnSlice)
  | replace (text from_ to_ : QnSlice) (count : Truncated)
  | replaceAll (text from_ to_ : QnSlice)
  | trimStart (text : QnSlice)
  | trimEnd (text : QnSlice)
  | toUpper (text : QnSlice)
  | toLower (text : QnSlice)

namespace Operation

def operands : Operation → List QnSlice
  | literal _ | received _ => []
  | concat left right => [left, right]
  | join parts separator => separator :: parts
  | slice text _ _ | .at text _ | graphemes text => [text]
  | split text separator => [text, separator]
  | replace text from_ to_ _ | replaceAll text from_ to_ => [text, from_, to_]
  | trimStart text | trimEnd text | toUpper text | toLower text => [text]

/-- The texts that are made, unless the program ends. -/
def results : Operation → Option (List QnSlice)
  | literal bytes => some [literalText unicode bytes]
  | received bytes => some [allocText unicode bytes]
  | concat left right => some [textConcat unicode left right]
  | join parts separator => some [textJoin unicode parts separator]
  | slice text start stop => some [textSlice unicode text start stop]
  | .at text index => some [textAt unicode text index]
  | graphemes text => some (textGraphemes unicode text)
  | split text separator => some (textSplit unicode text separator)
  | replace text from_ to_ count => (textReplace unicode text from_ to_ count).toOption.map ([·])
  | replaceAll text from_ to_ => (textReplaceAll unicode text from_ to_).toOption.map ([·])
  | trimStart text => some [textTrimStart unicode text]
  | trimEnd text => some [textTrimEnd unicode text]
  | toUpper text => some [textToUpper unicode text]
  | toLower text => some [textToLower unicode text]

end Operation

/-- A program that holds the texts of `store` makes more of them. -/
def step (op : Operation) (store : List QnSlice) : Option (List QnSlice) :=
  if op.operands ⊆ store then (op.results unicode).map (store ++ ·) else none

end Quilon.Text
