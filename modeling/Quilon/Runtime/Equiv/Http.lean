import Quilon.Runtime.Http

/-!
# An answer about a body stays

What `bodyProgress` says of the bytes received, unless it says to wait, it says when more of them have
arrived (`bodyProgress_append`), so that it does not matter in which pieces they arrive
(`feed_bodyProgress`), and a body is never longer than the cap (`length_le_of_complete`).
`bodyProgress_stable` states the three together.
-/

namespace Quilon.Http

variable {raw rest decoded suffix body : List UInt8} {maxBodySize at_ n : Nat}

/-! ### The blank line -/

theorem blankLineSpellings_ne_nil {spelling : List UInt8} (h : spelling ∈ blankLineSpellings) :
    spelling ≠ [] := by
  revert h spelling
  decide

/-- Two spellings do not begin at one place. -/
theorem eq_of_prefix_of_mem {left right : List UInt8} (hleft : left ∈ blankLineSpellings)
    (hright : right ∈ blankLineSpellings) (h : left <+: right) : left = right := by
  have hall : ∀ left ∈ blankLineSpellings, ∀ right ∈ blankLineSpellings,
      left <+: right → left = right := by decide
  exact hall left hleft right hright h

/-- A spelling does not end within another that began before it. -/
theorem not_prefix_drop_of_mem {left right : List UInt8} (hleft : left ∈ blankLineSpellings)
    (hright : right ∈ blankLineSpellings) {d : Nat} (hd : 0 < d)
    (hend : d + left.length < right.length) : ¬ left <+: right.drop d := by
  have hbound : d < 4 := by
    have hlength : ∀ right ∈ blankLineSpellings, right.length ≤ 4 := by decide
    have := hlength right hright
    omega
  have hall : ∀ left ∈ blankLineSpellings, ∀ right ∈ blankLineSpellings, ∀ d < 4, 0 < d →
      d + left.length < right.length → ¬ left <+: right.drop d := by decide
  exact hall left hleft right hright d hbound hd hend

/-- The place of a blank line, before which there is none. -/
structure IsBlankLine (raw : List UInt8) (at_ : Nat) (spelling : List UInt8) : Prop where
  mem : spelling ∈ blankLineSpellings
  found : spelling <+: raw.drop at_
  least : ∀ other ∈ blankLineSpellings, ∀ j < at_, ¬ other <+: raw.drop j

/-- There is at most one such place. -/
theorem IsBlankLine.unique {left right : List UInt8} {i j : Nat} (h : IsBlankLine raw i left)
    (h' : IsBlankLine raw j right) : i = j ∧ left = right := by
  have hplace : i = j := by
    rcases Nat.lt_trichotomy i j with hlt | heq | hgt
    · exact absurd h.found (h'.least left h.mem i hlt)
    · exact heq
    · exact absurd h'.found (h.least right h'.mem j hgt)
  subst hplace
  refine ⟨rfl, ?_⟩
  rcases List.prefix_or_prefix_of_prefix h.found h'.found with hprefix | hprefix
  · exact eq_of_prefix_of_mem h.mem h'.mem hprefix
  · exact (eq_of_prefix_of_mem h'.mem h.mem hprefix).symm

theorem isBlankLine_of_findBlankLine (h : findBlankLine raw = some (at_, n)) :
    ∃ spelling, spelling.length = n ∧ IsBlankLine raw at_ spelling := by
  unfold findBlankLine at h
  have hmem := List.minOn?_mem h
  obtain ⟨spelling, hspelling, hfound⟩ := List.mem_filterMap.mp hmem
  obtain ⟨i, hi, hpair⟩ := Option.map_eq_some_iff.mp hfound
  obtain ⟨rfl, rfl⟩ := Prod.mk.inj hpair
  have hprefix := (firstIndexOf_eq_some_iff (blankLineSpellings_ne_nil hspelling)).mp hi
  refine ⟨spelling, rfl, hspelling, hprefix.1, fun other hother j hj hearlier => ?_⟩
  have hne := blankLineSpellings_ne_nil hother
  -- The other spelling would have been found too, and before this one.
  cases hindex : findSubslice raw other with
  | none => exact (firstIndexOf_eq_none_iff hne).mp hindex j hearlier
  | some k =>
    have hk := (firstIndexOf_eq_some_iff hne).mp hindex
    have hkj : k ≤ j := by
      by_contra hlt
      exact hk.2 j (by omega) hearlier
    have hcandidate : (k, other.length) ∈ blankLineSpellings.filterMap fun spelling =>
        (findSubslice raw spelling).map fun at_ => (at_, spelling.length) :=
      List.mem_filterMap.mpr ⟨other, hother, by rw [hindex]; rfl⟩
    have hleast := List.apply_get_minOn?_le_of_mem (f := (·.1)) hcandidate
    simp only [h, Option.get_some] at hleast
    omega

/-- A blank line is found where the first one stands. -/
theorem findBlankLine_of_isBlankLine {spelling : List UInt8}
    (h : IsBlankLine raw at_ spelling) : findBlankLine raw = some (at_, spelling.length) := by
  have hne := blankLineSpellings_ne_nil h.mem
  have hindex : findSubslice raw spelling = some at_ :=
    (firstIndexOf_eq_some_iff hne).mpr ⟨h.found, h.least spelling h.mem⟩
  cases hfound : findBlankLine raw with
  | none =>
    unfold findBlankLine at hfound
    have hcandidate : (at_, spelling.length) ∈ blankLineSpellings.filterMap fun spelling =>
        (findSubslice raw spelling).map fun at_ => (at_, spelling.length) :=
      List.mem_filterMap.mpr ⟨spelling, h.mem, by rw [hindex]; rfl⟩
    have hsome := List.isSome_minOn?_of_mem (f := (·.1)) hcandidate
    rw [hfound] at hsome
    cases hsome
  | some place =>
    obtain ⟨i, m⟩ := place
    obtain ⟨other, rfl, hother⟩ := isBlankLine_of_findBlankLine hfound
    obtain ⟨rfl, rfl⟩ := h.unique hother
    rfl

theorem IsBlankLine.end_le {spelling : List UInt8} (h : IsBlankLine raw at_ spelling) :
    at_ + spelling.length ≤ raw.length :=
  add_length_le_of_prefix_drop h.found (blankLineSpellings_ne_nil h.mem)

theorem IsBlankLine.append {spelling : List UInt8} (h : IsBlankLine raw at_ spelling)
    (suffix : List UInt8) : IsBlankLine (raw ++ suffix) at_ spelling where
  mem := h.mem
  found := prefix_drop_append h.found
  least other hother j hj hearlier := by
    by_cases hend : j + other.length ≤ raw.length
    · exact h.least other hother j hj (prefix_drop_of_append hearlier hend)
    · -- It would end behind the blank line that has been found, which would lie within it.
      have hle := h.end_le
      have hwithin : spelling <+: other.drop (at_ - j) := by
        have hdrop : other.drop (at_ - j) <+: (raw ++ suffix).drop at_ := by
          have := hearlier.drop (at_ - j)
          rwa [List.drop_drop, Nat.add_sub_cancel' (Nat.le_of_lt hj)] at this
        refine List.prefix_of_prefix_length_le (prefix_drop_append h.found) hdrop ?_
        rw [List.length_drop]
        omega
      exact not_prefix_drop_of_mem h.mem hother (by omega) (by omega) hwithin

theorem findBlankLine_append (h : findBlankLine raw = some (at_, n)) (suffix : List UInt8) :
    findBlankLine (raw ++ suffix) = some (at_, n) ∧ at_ + n ≤ raw.length := by
  obtain ⟨spelling, rfl, hblank⟩ := isBlankLine_of_findBlankLine h
  exact ⟨findBlankLine_of_isBlankLine (hblank.append suffix), hblank.end_le⟩

/-! ### Chunks -/

/-- A size line that has arrived stays, and the bytes behind it go on. -/
theorem line_append {lineEnd : Nat} (h : findSubslice rest crlf = some lineEnd)
    (suffix : List UInt8) :
    findSubslice (rest ++ suffix) crlf = some lineEnd ∧
      (rest ++ suffix).take lineEnd = rest.take lineEnd ∧
        (rest ++ suffix).drop (lineEnd + 2) = rest.drop (lineEnd + 2) ++ suffix := by
  have hne : crlf ≠ [] := by decide
  have hfound := (firstIndexOf_eq_some_iff hne).mp h
  have hend : lineEnd + 2 ≤ rest.length := add_length_le_of_prefix_drop hfound.1 hne
  refine ⟨firstIndexOf_append hne h, List.take_append_of_le_length (by omega), ?_⟩
  exact List.drop_append_of_le_length hend

/-- An answer of the chunk loop stays when more bytes arrive. -/
theorem dechunkLoop_append (h : dechunkLoop maxBodySize decoded rest ≠ .incomplete)
    (suffix : List UInt8) :
    dechunkLoop maxBodySize decoded (rest ++ suffix) = dechunkLoop maxBodySize decoded rest := by
  fun_induction dechunkLoop maxBodySize decoded rest with
  | case1 decoded rest hline => exact absurd rfl h
  | case2 decoded rest lineEnd hline hsize =>
    obtain ⟨hline, htake, hdrop⟩ := line_append hline suffix
    rw [dechunkLoop]
    simp only [hline, htake, hsize]
  | case3 decoded rest lineEnd hline hsize =>
    obtain ⟨hline, htake, hdrop⟩ := line_append hline suffix
    rw [dechunkLoop]
    simp only [hline, htake, hsize]
  | case4 decoded rest lineEnd hline size hzero hsize hover =>
    obtain ⟨hline, htake, hdrop⟩ := line_append hline suffix
    rw [dechunkLoop]
    simp only [hline, htake, hsize, if_pos hover]
  | case5 decoded rest lineEnd hline size hzero hsize hover hlong =>
    obtain ⟨hline, htake, hdrop⟩ := line_append hline suffix
    rw [dechunkLoop]
    simp only [hline, htake, hsize, if_neg hover, if_pos hlong]
  | case6 => exact absurd rfl h
  | case7 decoded rest lineEnd hline size hzero hsize behind hover hlong hshort hend =>
    obtain ⟨hline, htake, hdrop⟩ := line_append hline suffix
    have hlength : size + 2 ≤ (rest.drop (lineEnd + 2)).length := Nat.le_of_not_lt hshort
    have hshort' : ¬ (rest.drop (lineEnd + 2) ++ suffix).length < size + 2 := by
      rw [List.length_append]
      omega
    rw [dechunkLoop]
    simp only [hline, htake, hdrop, hsize, if_neg hover, if_neg hlong, if_neg hshort',
      List.take_append_of_le_length hlength]
    exact if_pos hend
  | case8 decoded rest lineEnd hline size hzero hsize behind hover hlong hshort hend ih =>
    obtain ⟨hline, htake, hdrop⟩ := line_append hline suffix
    have hlength : size + 2 ≤ (rest.drop (lineEnd + 2)).length := Nat.le_of_not_lt hshort
    have hshort' : ¬ (rest.drop (lineEnd + 2) ++ suffix).length < size + 2 := by
      rw [List.length_append]
      omega
    have hchunk : (rest.drop (lineEnd + 2) ++ suffix).take size =
        (rest.drop (lineEnd + 2)).take size := List.take_append_of_le_length (by omega)
    rw [dechunkLoop]
    simp only [hline, htake, hdrop, hsize, if_neg hover, if_neg hlong, if_neg hshort', hchunk,
      List.take_append_of_le_length hlength, List.drop_append_of_le_length hlength]
    rw [if_neg hend]
    exact ih h

/-- What has been decoded stays within the cap. -/
theorem length_le_of_dechunkLoop (h : dechunkLoop maxBodySize decoded rest = .complete body)
    (hdecoded : decoded.length ≤ maxBodySize) : body.length ≤ maxBodySize := by
  fun_induction dechunkLoop maxBodySize decoded rest with
  | case1 => cases h
  | case2 => cases h
  | case3 decoded rest lineEnd hline hsize =>
    obtain rfl := BodyProgress.complete.inj h
    exact hdecoded
  | case4 => cases h
  | case5 => cases h
  | case6 => cases h
  | case7 => cases h
  | case8 decoded rest lineEnd hline size hzero hsize behind hover hlong hshort hend ih =>
    refine ih h ?_
    simp only [Bool.or_eq_true, decide_eq_true_eq, not_or] at hover
    rw [List.length_append, List.length_take]
    omega

/-! ### Bodies -/

theorem bodyProgress_append {transferEncoding contentLength : List Char}
    (h : bodyProgress raw transferEncoding contentLength maxBodySize ≠ .incomplete)
    (suffix : List UInt8) :
    bodyProgress (raw ++ suffix) transferEncoding contentLength maxBodySize =
      bodyProgress raw transferEncoding contentLength maxBodySize := by
  unfold bodyProgress at h ⊢
  cases hblank : findBlankLine raw with
  | none =>
    rw [hblank] at h
    exact absurd rfl h
  | some place =>
    obtain ⟨at_, n⟩ := place
    obtain ⟨hblank', hend⟩ := findBlankLine_append hblank suffix
    rw [hblank] at h
    simp only [hblank', List.drop_append_of_le_length hend] at h ⊢
    split
    case isTrue hchunked =>
      rw [if_pos hchunked] at h
      exact dechunkLoop_append h suffix
    case isFalse hchunked =>
      rw [if_neg hchunked] at h
      split
      case isTrue => rfl
      case isFalse hencoding =>
        rw [if_neg hencoding] at h
        cases hexpected : fromStrRadix 10 (trim contentLength) with
        | none => rfl
        | some expected =>
          simp only [hexpected] at h ⊢
          split
          case isTrue => rfl
          case isFalse hcap =>
            rw [if_neg hcap] at h
            -- Fewer bytes than expected would have been an answer to wait.
            have hlength : expected ≤ (raw.drop (at_ + n)).length := by
              by_contra hshort
              exact h (if_neg hshort)
            have hlength' : expected ≤ (raw.drop (at_ + n) ++ suffix).length := by
              rw [List.length_append]
              omega
            rw [if_pos hlength, if_pos hlength', List.take_append_of_le_length hlength]

theorem length_le_of_complete {transferEncoding contentLength : List Char}
    (h : bodyProgress raw transferEncoding contentLength maxBodySize = .complete body) :
    body.length ≤ maxBodySize := by
  unfold bodyProgress at h
  cases hblank : findBlankLine raw with
  | none =>
    rw [hblank] at h
    cases h
  | some place =>
    simp only [hblank] at h
    split at h
    case isTrue => exact length_le_of_dechunkLoop h (Nat.zero_le _)
    case isFalse =>
      split at h
      case isTrue => cases h
      case isFalse =>
        split at h
        case h_2 => cases h
        case h_1 expected hexpected =>
          split at h
          case isTrue => cases h
          case isFalse hcap =>
            split at h
            case isFalse => cases h
            case isTrue =>
              obtain rfl := BodyProgress.complete.inj h
              rw [List.length_take]
              omega

/-! ### Pieces -/

/-- Asking again after each piece gives the answer to all of them at once. -/
theorem feed_eq {progress : List UInt8 → BodyProgress}
    (hstable : ∀ raw suffix, progress raw ≠ .incomplete →
      progress (raw ++ suffix) = progress raw) (received : List UInt8)
    (pieces : List (List UInt8)) :
    feed progress received pieces = progress (received ++ pieces.flatten) := by
  induction pieces generalizing received with
  | nil => rw [feed, List.flatten_nil, List.append_nil]
  | cons piece rest ih =>
    unfold feed
    cases hanswer : progress received with
    | incomplete =>
      rw [ih, List.flatten_cons, List.append_assoc]
    | complete body => rw [hstable received _ (by simp [hanswer]), hanswer]
    | tooLarge => rw [hstable received _ (by simp [hanswer]), hanswer]
    | malformed reason => rw [hstable received _ (by simp [hanswer]), hanswer]

/-- An answer stays when more bytes arrive, whichever pieces they arrive in, and a body that is complete
keeps to the cap. -/
theorem bodyProgress_stable (transferEncoding contentLength : List Char) (maxBodySize : Nat) :
    (∀ raw suffix, bodyProgress raw transferEncoding contentLength maxBodySize ≠ .incomplete →
      bodyProgress (raw ++ suffix) transferEncoding contentLength maxBodySize =
        bodyProgress raw transferEncoding contentLength maxBodySize) ∧
    (∀ pieces, feed (bodyProgress · transferEncoding contentLength maxBodySize) [] pieces =
      bodyProgress pieces.flatten transferEncoding contentLength maxBodySize) ∧
    ∀ raw body, bodyProgress raw transferEncoding contentLength maxBodySize = .complete body →
      body.length ≤ maxBodySize := by
  refine ⟨fun raw suffix h => bodyProgress_append h suffix, fun pieces => ?_,
    fun raw body h => length_le_of_complete h⟩
  exact feed_eq (fun raw suffix h => bodyProgress_append h suffix) [] pieces

/-- An empty head and a body of one byte, with two more behind it. -/
theorem bodyProgress_stable_one :
    bodyProgress [CR, LF, CR, LF, 98] [] ['1'] 4 ≠ .incomplete ∧
      bodyProgress ([CR, LF, CR, LF, 98] ++ [99, 100]) [] ['1'] 4 =
        bodyProgress [CR, LF, CR, LF, 98] [] ['1'] 4 ∧
      bodyProgress [CR, LF, CR, LF, 98] [] ['1'] 4 = .complete [98] ∧
      [(98 : UInt8)].length ≤ 4 := by
  have hcomplete : bodyProgress [CR, LF, CR, LF, 98] [] ['1'] 4 = .complete [98] := by decide
  have hanswer : bodyProgress [CR, LF, CR, LF, 98] [] ['1'] 4 ≠ .incomplete := by
    rw [hcomplete]
    simp
  obtain ⟨hstable, _, hcap⟩ := bodyProgress_stable [] ['1'] 4
  exact ⟨hanswer, hstable _ [99, 100] hanswer, hcomplete, hcap _ _ hcomplete⟩

end Quilon.Http
