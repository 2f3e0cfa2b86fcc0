import Quilon.Corelib.Text

/-!
# Where the head of a message ends, by index

`foundOrEnd`, `blankLineIndex` and `blankLineEnd` of `corelib/http.qn`.
-/

namespace Quilon.Http

open Text

variable (unicode : Unicode)

def foundOrEnd (raw needle : QnSlice) : Option Int := do
  match ← raw.indexOf unicode needle with
  | some at_ => return at_
  | none => return raw.length

def blankLineIndex (raw : QnSlice) : Option Int := do
  let atCrlfCrlf ← foundOrEnd unicode raw (literal unicode "\r\n\r\n")
  let atLfLf ← foundOrEnd unicode raw (literal unicode "\n\n")
  let atCrlfLf ← foundOrEnd unicode raw (literal unicode "\r\n\n")
  let atLfCrlf ← foundOrEnd unicode raw (literal unicode "\n\r\n")
  let pureConvention := if atCrlfCrlf < atLfLf then atCrlfCrlf else atLfLf
  let mixedConvention := if atCrlfLf < atLfCrlf then atCrlfLf else atLfCrlf
  return if pureConvention < mixedConvention then pureConvention else mixedConvention

def blankLineEnd (raw : QnSlice) : Option Int := do
  let start ← blankLineIndex unicode raw
  return if start = raw.length then raw.length else start + 2

end Quilon.Http
