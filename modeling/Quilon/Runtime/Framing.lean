import Quilon.Runtime.Indexing

/-!
# Framing a finished reply

`dechunk` and `frame_body` of `quilon-rt/src/http.rs`, which the client asks once the peer has closed; and
the chunk loop with the sums and ranges it forms, of which one outside `usize` or the bytes would end the
program (`none`).
-/

namespace Quilon.Http

open Text (byteRange)

/-- The longest a slice can be. -/
def isizeMax : Nat := 2 ^ 63 - 1

/-- `+` on `usize` -/
def addUsize (a b : Nat) : Option Nat := if usizeMax < a + b then none else some (a + b)

/-- The loop of `dechunk_progress`, for so many turns. -/
def dechunkTurns (maxBodySize : Nat) : Nat → List UInt8 → List UInt8 → Option BodyProgress
  | 0, _, _ => none
  | turns + 1, decoded, rest =>
    match findSubslice rest crlf with
    | none => some .incomplete
    | some lineEnd => do
      let sizeField ← byteRange rest 0 lineEnd
      match chunkSize sizeField with
      | none => return .malformed "malformed chunked framing"
      | some size => do
        let lineAndTerminator ← addUsize lineEnd 2
        let behind ← byteRange rest lineAndTerminator rest.length
        if size = 0 then return .complete decoded
        else
          let overCap : Bool :=
            match addUsize decoded.length size with
            | some total => maxBodySize < total
            | none => true
          if overCap then return .tooLarge
          else
            match addUsize size 2 with
            | none => return .tooLarge
            | some chunkAndTerminator =>
              if behind.length < chunkAndTerminator then return .incomplete
              else do
                let terminator ← byteRange behind size chunkAndTerminator
                if terminator ≠ crlf then return .malformed "malformed chunked framing"
                else do
                  let chunk ← byteRange behind 0 size
                  let next ← byteRange behind chunkAndTerminator behind.length
                  dechunkTurns maxBodySize turns (decoded ++ chunk) next

/-- `dechunk` -/
def dechunk (body : List UInt8) : Except String (List UInt8) :=
  match dechunkProgress body usizeMax with
  | .complete decoded => .ok decoded
  | .incomplete | .tooLarge => .error "malformed chunked framing"
  | .malformed reason => .error reason

/-- The `QnResult` of `frame_body`. -/
inductive Framed where
  | ok (body : List UInt8)
  | notOk (reason : String)
deriving DecidableEq

/-- `frame_body` -/
def frameBody (raw : List UInt8) (bodiless : Bool) (transferEncoding contentLength : List Char) :
    Framed :=
  match findBlankLine raw with
  | none => .ok []
  | some (at_, spellingLen) =>
    let body := raw.drop (at_ + spellingLen)
    if bodiless then .ok []
    else if isChunked transferEncoding then
      match dechunk body with
      | .ok decoded => .ok decoded
      | .error reason => .notOk reason
    else if !contentLength.isEmpty then
      match fromStrRadix 10 (trim contentLength) with
      | some expected =>
        if expected ≤ body.length then .ok (body.take expected)
        else
          .notOk ("truncated body: expected " ++ toString expected ++ " bytes, got " ++
            toString body.length)
      | none => .notOk "malformed Content-Length"
    else .ok body

end Quilon.Http
