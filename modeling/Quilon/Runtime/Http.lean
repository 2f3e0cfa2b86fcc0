import Quilon.Library.Subslice
import Mathlib.Algebra.Ring.Nat

/-!
# Framing the body of an HTTP message

`quilon-rt/src/http.rs`, on the bytes of a message: where the head ends, and what has become of the
body behind it.

Lengths and chunk sizes are `usize` values of 64 bits, texts are lists of characters.
-/

namespace Quilon.Http

def usizeMax : Nat := 2 ^ 64 - 1

/-- `char::is_whitespace` -/
def isWhitespace (c : Char) : Bool :=
  let n := c.toNat
  (9 ≤ n && n ≤ 13) || n == 0x20 || n == 0x85 || n == 0xA0 || n == 0x1680 ||
    (0x2000 ≤ n && n ≤ 0x200A) || n == 0x2028 || n == 0x2029 || n == 0x202F || n == 0x205F ||
    n == 0x3000

/-- `str::trim` -/
def trim (text : List Char) : List Char :=
  ((text.dropWhile isWhitespace).reverse.dropWhile isWhitespace).reverse

/-- `char::to_digit` -/
def toDigit (radix : Nat) (c : Char) : Option Nat :=
  let value :=
    if '0' ≤ c && c ≤ '9' then some (c.toNat - '0'.toNat)
    else if 'a' ≤ c && c ≤ 'z' then some (c.toNat - 'a'.toNat + 10)
    else if 'A' ≤ c && c ≤ 'Z' then some (c.toNat - 'A'.toNat + 10)
    else none
  value.filter (· < radix)

/-- The number the digits stand for, unless it overflows. -/
def parseDigits (radix : Nat) (total : Nat) : List Char → Option Nat
  | [] => some total
  | c :: rest =>
    match toDigit radix c with
    | none => none
    | some digit =>
      let next := total * radix + digit
      if usizeMax < next then none else parseDigits radix next rest

/-- `usize::from_str_radix` -/
def fromStrRadix (radix : Nat) : List Char → Option Nat
  | [] | ['+'] | ['-'] => none
  | '+' :: digits => parseDigits radix 0 digits
  | digits => parseDigits radix 0 digits

/-- `str::from_utf8` -/
def fromUtf8 (bytes : List UInt8) : Option (List Char) :=
  (String.fromUTF8? ⟨bytes.toArray⟩).map (·.toList)

abbrev CR : UInt8 := 13
abbrev LF : UInt8 := 10
abbrev crlf : List UInt8 := [CR, LF]

/-- `BLANK_LINE_SPELLINGS` -/
def blankLineSpellings : List (List UInt8) :=
  [[CR, LF, CR, LF], [LF, LF], [CR, LF, LF], [LF, CR, LF]]

def findSubslice (haystack needle : List UInt8) : Option Nat := firstIndexOf needle haystack

/-- Where the blank line begins and how many bytes it spans. -/
def findBlankLine (raw : List UInt8) : Option (Nat × Nat) :=
  (blankLineSpellings.filterMap fun spelling =>
    (findSubslice raw spelling).map fun at_ => (at_, spelling.length)).minOn? (·.1)

def eqIgnoreAsciiCase (left right : List Char) : Bool :=
  left.map Char.toLower == right.map Char.toLower

/-- Whether `chunked` is the last of the encodings. -/
def isChunked (transferEncoding : List Char) : Bool :=
  let token := (transferEncoding.reverse.takeWhile (· ≠ ',')).reverse
  eqIgnoreAsciiCase (trim token) "chunked".toList

inductive BodyProgress where
  | complete (body : List UInt8)
  | incomplete
  | tooLarge
  | malformed (reason : String)
deriving DecidableEq

/-- The size of a chunk, behind which an extension may stand. -/
def chunkSize (sizeField : List UInt8) : Option Nat :=
  (fromUtf8 (sizeField.takeWhile (· ≠ 59))).bind fun sizeText => fromStrRadix 16 (trim sizeText)

/-- The loop of `dechunk_progress`. -/
def dechunkLoop (maxBodySize : Nat) (decoded rest : List UInt8) : BodyProgress :=
  match findSubslice rest crlf with
  | none => .incomplete
  | some lineEnd =>
    match chunkSize (rest.take lineEnd) with
    | none => .malformed "malformed chunked framing"
    | some 0 => .complete decoded
    | some size =>
      let behind := rest.drop (lineEnd + 2)
      if usizeMax < decoded.length + size || maxBodySize < decoded.length + size then .tooLarge
      else if usizeMax < size + 2 then .tooLarge
      else if behind.length < size + 2 then .incomplete
      else if (behind.take (size + 2)).drop size ≠ crlf then .malformed "malformed chunked framing"
      else dechunkLoop maxBodySize (decoded ++ behind.take size) (behind.drop (size + 2))
termination_by rest.length
decreasing_by
  simp only [behind, List.length_drop] at *
  omega

def dechunkProgress (body : List UInt8) (maxBodySize : Nat) : BodyProgress :=
  dechunkLoop maxBodySize [] body

def bodyProgress (raw : List UInt8) (transferEncoding contentLength : List Char)
    (maxBodySize : Nat) : BodyProgress :=
  match findBlankLine raw with
  | none => .incomplete
  | some (at_, spellingLen) =>
    let body := raw.drop (at_ + spellingLen)
    if isChunked transferEncoding then dechunkProgress body maxBodySize
    else if !transferEncoding.isEmpty then .malformed "unsupported Transfer-Encoding"
    else
      match fromStrRadix 10 (trim contentLength) with
      | some expected =>
        if maxBodySize < expected then .tooLarge
        else if expected ≤ body.length then .complete (body.take expected)
        else .incomplete
      | none => .malformed "malformed Content-Length"

/-- What a reader is told that asks again after each piece until it is told something else than to
wait. -/
def feed (progress : List UInt8 → BodyProgress) (received : List UInt8) :
    List (List UInt8) → BodyProgress
  | [] => progress received
  | piece :: rest =>
    match progress received with
    | .incomplete => feed progress (received ++ piece) rest
    | answer => answer

end Quilon.Http
