import Quilon.Corelib.Text
import Quilon.Runtime.Equiv.Indexing

/-!
# What the text methods answer

On a well-formed text `indexOf` counts the clusters before the first occurrence (`indexOf_eq`) and
`slice` keeps the clusters between two indices (`slice_eq`).
-/

namespace Quilon.Text

open Utf8

variable {unicode : Unicode} {text sub : QnSlice}

theorem textStr_literal (unicode : Unicode) (written : String) :
    textStr (literal unicode written) = written.toList := by
  rw [textStr_eq]
  exact lossy_encode written.toList

theorem content_literal (unicode : Unicode) (written : String) :
    (literal unicode written).content = encode written.toList := rfl

theorem countOf_mono (unicode : Unicode) (before more : List Char) :
    countOf unicode before ≤ countOf unicode (before ++ more) := by
  rw [countOf_append]
  omega

namespace QnSlice

theorem length_eq (h : WellFormed unicode text) :
    text.length = (graphemesOf unicode (textStr text)).length := by
  rw [length, h.count, textStr_eq]
  rfl

theorem countOf_nonneg (unicode : Unicode) (text : List Char) : 0 ≤ countOf unicode text :=
  Int.natCast_nonneg _

/-- The index of what is found counts the clusters before it. -/
theorem indexOf_eq (h : WellFormed unicode text) (sub : QnSlice) :
    text.indexOf unicode sub = some ((strFind (textStr text) (textStr sub)).map fun characters =>
      countOf unicode ((textStr text).take characters)) := by
  have hzero : clamp 0 (graphemesOf unicode (textStr text)).length = 0 := by
    unfold clamp
    omega
  have hall : (graphemesOf unicode (textStr text)).flatten = textStr text :=
    flatten_graphemes unicode.classOf _
  rw [indexOf, textFindFrom_eq h, hzero]
  unfold foundBehind
  simp only [List.take_zero, List.drop_zero, List.flatten_nil, List.nil_append, hall]
  cases strFind (textStr text) (textStr sub) with
  | none => rfl
  | some characters => simp [countOf_nonneg]

theorem slice_eq (unicode : Unicode) (text : QnSlice) (start stop : Int) :
    text.slice unicode start stop = some (textSlice unicode text start stop) :=
  textSliceChecked_eq unicode text start stop

/-- A slice from one cluster to another. -/
theorem content_slice_of_clusters (h : WellFormed unicode text)
    {before middle behind : List (List Char)}
    (hclusters : graphemesOf unicode (textStr text) = before ++ middle ++ behind) :
    (textSlice unicode text before.length (before.length + middle.length)).content =
      encode middle.flatten := by
  have hlo : clamp before.length (before ++ middle ++ behind).length = before.length := by
    unfold clamp
    rw [List.length_append, List.length_append]
    omega
  have hhi : clamp ((before.length : Int) + middle.length) (before ++ middle ++ behind).length =
      (before ++ middle).length := by
    unfold clamp
    rw [List.length_append, List.length_append]
    omega
  rw [content_textSlice h, hclusters, hlo, hhi, List.take_left, List.drop_left]

end QnSlice

end Quilon.Text
