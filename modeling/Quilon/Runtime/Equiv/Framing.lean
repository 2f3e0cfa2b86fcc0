import Quilon.Runtime.Equiv.Http
import Quilon.Runtime.Framing

/-!
# One message framed at once and as it arrives

`frameBody` of a finished message against `bodyProgress` of the same bytes.  A body that is complete is
framed alike (`frameBody_of_complete`); the two part where no blank line has arrived, where another
encoding than `chunked` is named and where no header frames the body, and agree wherever the framing is
chunked or by length (`framings_agree`).
-/

namespace Quilon.Http

variable {raw rest decoded body : List UInt8} {maxBodySize cap n : Nat}
  {transferEncoding contentLength : List Char}

/-! ### Chunks under two caps -/

theorem not_over_usizeMax {total : Nat}
    (h : ¬ (decide (usizeMax < total) || decide (maxBodySize < total)) = true) :
    ¬ (decide (usizeMax < total) || decide (usizeMax < total)) = true := by
  simp only [Bool.or_eq_true, decide_eq_true_eq, not_or] at h ⊢
  exact ⟨h.1, h.1⟩

theorem length_le_of_dechunkLoop_complete
    (h : dechunkLoop maxBodySize decoded rest = .complete body) : decoded.length ≤ body.length := by
  fun_induction dechunkLoop maxBodySize decoded rest with
  | case1 => cases h
  | case2 => cases h
  | case3 decoded rest lineEnd hline hsize => rw [BodyProgress.complete.inj h]
  | case4 => cases h
  | case5 => cases h
  | case6 => cases h
  | case7 => cases h
  | case8 decoded rest lineEnd hline size hzero hsize behind hover hlong hshort hend ih =>
    have hmore := ih h
    rw [List.length_append] at hmore
    omega

/-- Without a cap the answer is the same, unless it is that the body is too large. -/
theorem dechunkLoop_uncapped (h : dechunkLoop maxBodySize decoded rest ≠ .tooLarge) :
    dechunkLoop usizeMax decoded rest = dechunkLoop maxBodySize decoded rest := by
  fun_induction dechunkLoop maxBodySize decoded rest with
  | case1 decoded rest hline =>
    rw [dechunkLoop]
    simp only [hline]
  | case2 decoded rest lineEnd hline hsize =>
    rw [dechunkLoop]
    simp only [hline, hsize]
  | case3 decoded rest lineEnd hline hsize =>
    rw [dechunkLoop]
    simp only [hline, hsize]
  | case4 => exact absurd rfl h
  | case5 => exact absurd rfl h
  | case6 decoded rest lineEnd hline size hzero hsize behind hover hlong hshort =>
    have hover' := not_over_usizeMax hover
    rw [dechunkLoop]
    simp only [hline, hsize]
    rw [if_neg hover', if_neg hlong, if_pos hshort]
  | case7 decoded rest lineEnd hline size hzero hsize behind hover hlong hshort hend =>
    have hover' := not_over_usizeMax hover
    rw [dechunkLoop]
    simp only [hline, hsize]
    rw [if_neg hover', if_neg hlong, if_neg hshort, if_pos hend]
  | case8 decoded rest lineEnd hline size hzero hsize behind hover hlong hshort hend ih =>
    have hover' := not_over_usizeMax hover
    rw [dechunkLoop]
    simp only [hline, hsize]
    rw [if_neg hover', if_neg hlong, if_neg hshort, if_neg hend]
    exact ih h

/-- What is complete under one cap is complete under every other that it keeps to. -/
theorem dechunkLoop_complete_cap (h : dechunkLoop maxBodySize decoded rest = .complete body)
    (hcap : body.length ≤ cap) : dechunkLoop cap decoded rest = .complete body := by
  fun_induction dechunkLoop maxBodySize decoded rest with
  | case1 => cases h
  | case2 => cases h
  | case3 decoded rest lineEnd hline hsize =>
    rw [dechunkLoop]
    simp only [hline, hsize]
    exact h
  | case4 => cases h
  | case5 => cases h
  | case6 => cases h
  | case7 => cases h
  | case8 decoded rest lineEnd hline size hzero hsize behind hover hlong hshort hend ih =>
    have hmore := length_le_of_dechunkLoop_complete h
    rw [List.length_append, List.length_take] at hmore
    have hover' : ¬ (decide (usizeMax < decoded.length + size) ||
        decide (cap < decoded.length + size)) = true := by
      simp only [Bool.or_eq_true, decide_eq_true_eq, not_or] at hover ⊢
      omega
    rw [dechunkLoop]
    simp only [hline, hsize]
    rw [if_neg hover', if_neg hlong, if_neg hshort, if_neg hend]
    exact ih h

/-! ### Each framing -/

theorem not_isChunked_nil : ¬ isChunked [] = true := by decide

theorem framings_no_blankLine (hblank : findBlankLine raw = none) :
    frameBody raw false transferEncoding contentLength = .ok [] ∧
      bodyProgress raw transferEncoding contentLength maxBodySize = .incomplete := by
  unfold frameBody bodyProgress
  rw [hblank]
  exact ⟨rfl, rfl⟩

section

variable {at_ : Nat} (hblank : findBlankLine raw = some (at_, n))
include hblank

theorem frameBody_chunked (hchunked : isChunked transferEncoding = true) :
    frameBody raw false transferEncoding contentLength =
      match dechunk (raw.drop (at_ + n)) with
      | .ok decoded => .ok decoded
      | .error reason => .notOk reason := by
  unfold frameBody
  rw [hblank]
  exact if_neg Bool.false_ne_true |>.trans (if_pos hchunked)

theorem bodyProgress_chunked (hchunked : isChunked transferEncoding = true) :
    bodyProgress raw transferEncoding contentLength maxBodySize =
      dechunkProgress (raw.drop (at_ + n)) maxBodySize := by
  unfold bodyProgress
  simp only [hblank, hchunked, if_true]

theorem bodyProgress_unsupported (hchunked : ¬ isChunked transferEncoding = true)
    (hencoding : transferEncoding ≠ []) :
    bodyProgress raw transferEncoding contentLength maxBodySize =
      .malformed "unsupported Transfer-Encoding" := by
  have hnonempty : (!transferEncoding.isEmpty) = true := by
    rw [Bool.not_eq_true', List.isEmpty_eq_false_iff]
    exact hencoding
  unfold bodyProgress
  simp only [hblank]
  rw [if_neg hchunked, if_pos hnonempty]

/-- A body of the length the header says. -/
theorem frameBody_length {expected : Nat}
    (hexpected : fromStrRadix 10 (trim contentLength) = some expected) :
    frameBody raw false [] contentLength =
      if expected ≤ (raw.drop (at_ + n)).length then .ok ((raw.drop (at_ + n)).take expected)
      else
        .notOk ("truncated body: expected " ++ toString expected ++ " bytes, got " ++
          toString (raw.drop (at_ + n)).length) := by
  have hne : contentLength ≠ [] := by
    rintro rfl
    cases hexpected
  have hnonempty : (!contentLength.isEmpty) = true := by
    rw [Bool.not_eq_true', List.isEmpty_eq_false_iff]
    exact hne
  unfold frameBody
  simp only [hblank, hexpected]
  rw [if_neg Bool.false_ne_true, if_neg not_isChunked_nil, if_pos hnonempty]

theorem bodyProgress_length {expected : Nat}
    (hexpected : fromStrRadix 10 (trim contentLength) = some expected) :
    bodyProgress raw [] contentLength maxBodySize =
      if maxBodySize < expected then .tooLarge
      else if expected ≤ (raw.drop (at_ + n)).length then
        .complete ((raw.drop (at_ + n)).take expected)
      else .incomplete := by
  unfold bodyProgress
  simp only [hblank, hexpected]
  rw [if_neg not_isChunked_nil]
  rfl

theorem frameBody_no_length (hexpected : fromStrRadix 10 (trim contentLength) = none) :
    frameBody raw false [] contentLength =
      if contentLength = [] then .ok (raw.drop (at_ + n)) else .notOk "malformed Content-Length" := by
  unfold frameBody
  simp only [hblank, hexpected]
  rw [if_neg Bool.false_ne_true, if_neg not_isChunked_nil]
  cases contentLength with
  | nil => rfl
  | cons c contentLength => rfl

theorem bodyProgress_no_length (hexpected : fromStrRadix 10 (trim contentLength) = none) :
    bodyProgress raw [] contentLength maxBodySize = .malformed "malformed Content-Length" := by
  unfold bodyProgress
  simp only [hblank, hexpected]
  rw [if_neg not_isChunked_nil]
  rfl

end

/-! ### Both framings -/

/-- The body is framed by chunks, or by a length where no encoding is named. -/
def Framing (transferEncoding contentLength : List Char) : Prop :=
  isChunked transferEncoding = true ∨ (transferEncoding = [] ∧ contentLength ≠ [])

/-- A body that is complete is what the finished message is framed to. -/
theorem frameBody_of_complete
    (h : bodyProgress raw transferEncoding contentLength maxBodySize = .complete body) :
    frameBody raw false transferEncoding contentLength = .ok body := by
  cases hblank : findBlankLine raw with
  | none =>
    rw [(framings_no_blankLine hblank).2] at h
    cases h
  | some place =>
    by_cases hchunked : isChunked transferEncoding = true
    · rw [bodyProgress_chunked hblank hchunked] at h
      rw [frameBody_chunked hblank hchunked]
      have hanswer : dechunkLoop maxBodySize [] (raw.drop (place.1 + place.2)) = .complete body := h
      have huncapped := dechunkLoop_uncapped (by rw [hanswer]; exact BodyProgress.noConfusion)
      rw [dechunk, dechunkProgress, huncapped, hanswer]
    · by_cases hencoding : transferEncoding = []
      · subst hencoding
        cases hexpected : fromStrRadix 10 (trim contentLength) with
        | none =>
          rw [bodyProgress_no_length hblank hexpected] at h
          cases h
        | some expected =>
          rw [bodyProgress_length hblank hexpected] at h
          rw [frameBody_length hblank hexpected]
          split at h
          case isTrue => cases h
          case isFalse =>
            split at h
            case isTrue hlong => rw [if_pos hlong, BodyProgress.complete.inj h]
            case isFalse => cases h
      · rw [bodyProgress_unsupported hblank hchunked hencoding] at h
        cases h

/-- What a finished message is framed to was complete, where it keeps to the cap. -/
theorem complete_of_frameBody (hblank : findBlankLine raw = some (at_, n))
    (hframing : isChunked transferEncoding = true ∨
      (transferEncoding = [] ∧ (fromStrRadix 10 (trim contentLength)).isSome))
    (h : frameBody raw false transferEncoding contentLength = .ok body)
    (hcap : body.length ≤ maxBodySize) :
    bodyProgress raw transferEncoding contentLength maxBodySize = .complete body := by
  rcases hframing with hchunked | ⟨rfl, hlength⟩
  · rw [frameBody_chunked hblank hchunked] at h
    rw [bodyProgress_chunked hblank hchunked]
    unfold dechunk at h
    cases hanswer : dechunkProgress (raw.drop (at_ + n)) usizeMax with
    | complete decoded =>
      rw [hanswer] at h
      obtain rfl : decoded = body := Framed.ok.inj h
      exact dechunkLoop_complete_cap hanswer hcap
    | incomplete =>
      rw [hanswer] at h
      cases h
    | tooLarge =>
      rw [hanswer] at h
      cases h
    | malformed reason =>
      rw [hanswer] at h
      cases h
  · obtain ⟨expected, hexpected⟩ := Option.isSome_iff_exists.mp hlength
    rw [frameBody_length hblank hexpected] at h
    rw [bodyProgress_length hblank hexpected]
    split at h
    case isFalse => cases h
    case isTrue hlong =>
      obtain rfl := Framed.ok.inj h
      rw [List.length_take, Nat.min_eq_left hlong] at hcap
      rw [if_neg (Nat.not_lt.mpr hcap), if_pos hlong]

/-- A body that is malformed is not framed, where chunks or a length frame it. -/
theorem not_ok_of_malformed {reason : String} (hframing : Framing transferEncoding contentLength)
    (h : bodyProgress raw transferEncoding contentLength maxBodySize = .malformed reason) :
    frameBody raw false transferEncoding contentLength ≠ .ok body := by
  cases hblank : findBlankLine raw with
  | none =>
    rw [(framings_no_blankLine hblank).2] at h
    cases h
  | some place =>
    rcases hframing with hchunked | ⟨rfl, hne⟩
    · rw [bodyProgress_chunked hblank hchunked] at h
      rw [frameBody_chunked hblank hchunked]
      have hanswer : dechunkLoop maxBodySize [] (raw.drop (place.1 + place.2)) = .malformed reason := h
      have huncapped := dechunkLoop_uncapped (by rw [hanswer]; exact BodyProgress.noConfusion)
      rw [dechunk, dechunkProgress, huncapped, hanswer]
      exact Framed.noConfusion
    · cases hexpected : fromStrRadix 10 (trim contentLength) with
      | none =>
        rw [frameBody_no_length hblank hexpected, if_neg hne]
        exact Framed.noConfusion
      | some expected =>
        rw [bodyProgress_length hblank hexpected] at h
        split at h
        case isTrue => cases h
        case isFalse => split at h <;> cases h

/-- The two framings agree wherever the body is framed by chunks, or by a length where no encoding is named.
They part without a blank line, with another encoding, and with neither header. -/
theorem framings_agree (raw : List UInt8) (transferEncoding contentLength : List Char)
    (maxBodySize : Nat) :
    (∀ body, bodyProgress raw transferEncoding contentLength maxBodySize = .complete body →
      frameBody raw false transferEncoding contentLength = .ok body) ∧
    ((findBlankLine raw).isSome → (isChunked transferEncoding = true ∨
        (transferEncoding = [] ∧ (fromStrRadix 10 (trim contentLength)).isSome)) →
      ∀ body, frameBody raw false transferEncoding contentLength = .ok body →
        body.length ≤ maxBodySize →
          bodyProgress raw transferEncoding contentLength maxBodySize = .complete body) ∧
    (Framing transferEncoding contentLength →
      ∀ reason, bodyProgress raw transferEncoding contentLength maxBodySize = .malformed reason →
        ∀ body, frameBody raw false transferEncoding contentLength ≠ .ok body) ∧
    (findBlankLine raw = none →
      frameBody raw false transferEncoding contentLength = .ok [] ∧
        bodyProgress raw transferEncoding contentLength maxBodySize = .incomplete) ∧
    ((findBlankLine raw).isSome → isChunked transferEncoding = false → transferEncoding ≠ [] →
      bodyProgress raw transferEncoding contentLength maxBodySize =
        .malformed "unsupported Transfer-Encoding") ∧
    ∀ at_ n, findBlankLine raw = some (at_, n) → transferEncoding = [] → contentLength = [] →
      frameBody raw false transferEncoding contentLength = .ok (raw.drop (at_ + n)) ∧
        bodyProgress raw transferEncoding contentLength maxBodySize =
          .malformed "malformed Content-Length" := by
  refine ⟨fun body h => frameBody_of_complete h, fun hblank hframing body h hcap => ?_,
    fun hframing reason h body => not_ok_of_malformed hframing h, framings_no_blankLine,
    fun hblank hchunked hencoding => ?_, fun at_ n hblank hencoding hlength => ?_⟩
  · obtain ⟨place, hplace⟩ := Option.isSome_iff_exists.mp hblank
    exact complete_of_frameBody hplace hframing h hcap
  · obtain ⟨place, hplace⟩ := Option.isSome_iff_exists.mp hblank
    exact bodyProgress_unsupported hplace (by rw [hchunked]; exact Bool.false_ne_true) hencoding
  · subst hencoding hlength
    exact ⟨frameBody_no_length hblank rfl, bodyProgress_no_length hblank rfl⟩

/-- Another encoding than `chunked`, which the one refuses and the other passes over. -/
theorem framings_part :
    ¬ ∀ (raw : List UInt8) (transferEncoding contentLength : List Char) (maxBodySize : Nat),
      ∀ reason, bodyProgress raw transferEncoding contentLength maxBodySize = .malformed reason →
        ∀ body, frameBody raw false transferEncoding contentLength ≠ .ok body := by
  intro h
  exact h [CR, LF, CR, LF, 98] "gzip".toList ['1'] 4 "unsupported Transfer-Encoding" (by decide) [98]
    (by decide)

/-- An empty head and a body of one byte. -/
theorem framings_agree_one : frameBody [CR, LF, CR, LF, 98, 99] false [] ['1'] = .ok [98] :=
  (framings_agree [CR, LF, CR, LF, 98, 99] [] ['1'] 4).1 [98] (by decide)

end Quilon.Http
