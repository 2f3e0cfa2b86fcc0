import Quilon.Library.Utf8

/-!
# Beginnings of UTF-8

What bytes begin with that is well-formed (`decodePrefix`), and whether what is left of them is the
beginning of one more character (`isIncomplete_iff`).  Exactly then can more bytes make them
well-formed (`not_broken_iff`).
-/

namespace Quilon.Utf8

/-- Some of the bytes of one character, but not all. -/
def isIncomplete : List UInt8 → Bool
  | [first] => 0xC2 ≤ first && first ≤ 0xF4
  | [first, second] => isSecond first second
  | [first, second, third] => 0xF0 ≤ first && isSecond first second && isContinuation third
  | _ => false

/-- The characters the bytes begin with, and what is behind them. -/
def decodePrefix : List UInt8 → List Char × List UInt8
  | [] => ([], [])
  | b :: rest =>
    match decodeChar? (b :: rest) with
    | none => ([], b :: rest)
    | some c =>
      let (text, left) := decodePrefix ((b :: rest).drop c.utf8Size)
      (c :: text, left)
termination_by bytes => bytes.length
decreasing_by
  have := c.utf8Size_pos
  simp only [List.length_drop, List.length_cons]
  omega

/-- No bytes behind these make them well-formed. -/
def Broken (bytes : List UInt8) : Prop := ∀ more, decode? (bytes ++ more) = none

/-- The last character of the bytes is not all there. -/
def EndsInside (bytes : List UInt8) : Prop :=
  ∃ text left, bytes = encode text ++ left ∧ left ≠ [] ∧
    ∃ c more, more ≠ [] ∧ left ++ more = String.utf8EncodeChar c

variable {text : List Char} {bytes more left : List UInt8} {c : Char} {first second third : UInt8}

/-! ### One character -/

theorem toNat_valid (c : Char) :
    (c.toNat < 0xD800 ∨ 0xDFFF < c.toNat) ∧ c.toNat ≤ 0x10FFFF := by
  have hvalid : c.toNat < 0xD800 ∨ (0xDFFF < c.toNat ∧ c.toNat < 0x110000) := c.valid
  omega

/-- The bytes of a character. -/
theorem encodeChar_shape (c : Char) :
    (c.toNat ≤ 0x7F ∧ ∃ a, String.utf8EncodeChar c = [a] ∧ a.toNat = c.toNat) ∨
    (0x80 ≤ c.toNat ∧ c.toNat ≤ 0x7FF ∧ ∃ a b, String.utf8EncodeChar c = [a, b] ∧
      a.toNat = c.toNat / 64 + 0xC0 ∧ b.toNat = c.toNat % 64 + 0x80) ∨
    (0x800 ≤ c.toNat ∧ c.toNat ≤ 0xFFFF ∧ ∃ a b d, String.utf8EncodeChar c = [a, b, d] ∧
      a.toNat = c.toNat / 4096 + 0xE0 ∧ b.toNat = c.toNat / 64 % 64 + 0x80 ∧
        d.toNat = c.toNat % 64 + 0x80) ∨
    (0x10000 ≤ c.toNat ∧ c.toNat ≤ 0x10FFFF ∧ ∃ a b d e, String.utf8EncodeChar c = [a, b, d, e] ∧
      a.toNat = c.toNat / 262144 + 0xF0 ∧ b.toNat = c.toNat / 4096 % 64 + 0x80 ∧
        d.toNat = c.toNat / 64 % 64 + 0x80 ∧ e.toNat = c.toNat % 64 + 0x80) := by
  have hbyte : ∀ {n : Nat}, n < 256 → (UInt8.ofNat n).toNat = n := UInt8.toNat_ofNat_of_lt
  have hmax := (toNat_valid c).2
  have hval : c.val.toNat = c.toNat := rfl
  unfold String.utf8EncodeChar
  simp only [hval]
  by_cases hone : c.toNat ≤ 0x7F
  · exact .inl ⟨hone, _, if_pos hone, hbyte (by omega)⟩
  · rw [if_neg hone]
    by_cases htwo : c.toNat ≤ 0x7FF
    · refine .inr (.inl ⟨by omega, htwo, _, _, if_pos htwo, ?_, ?_⟩)
      · rw [hbyte (by omega)]
        omega
      · rw [hbyte (by omega)]
    · rw [if_neg htwo]
      by_cases hthree : c.toNat ≤ 0xFFFF
      · refine .inr (.inr (.inl ⟨by omega, hthree, _, _, _, if_pos hthree, ?_, ?_, ?_⟩))
        · rw [hbyte (by omega)]
          omega
        · rw [hbyte (by omega)]
        · rw [hbyte (by omega)]
      · rw [if_neg hthree]
        refine .inr (.inr (.inr ⟨by omega, hmax, _, _, _, _, rfl, ?_, ?_, ?_, ?_⟩))
        · rw [hbyte (by omega)]
          omega
        · rw [hbyte (by omega)]
        · rw [hbyte (by omega)]
        · rw [hbyte (by omega)]

theorem isContinuation_iff {b : UInt8} :
    isContinuation b = true ↔ 0x80 ≤ b.toNat ∧ b.toNat ≤ 0xBF := by
  unfold isContinuation
  rw [Bool.and_eq_true, decide_eq_true_iff, decide_eq_true_iff, UInt8.le_iff_toNat_le,
    UInt8.le_iff_toNat_le]
  rfl

theorem isSecond_iff : isSecond first second = true ↔
    0xE0 ≤ first.toNat ∧ first.toNat ≤ 0xF4 ∧ 0x80 ≤ second.toNat ∧ second.toNat ≤ 0xBF ∧
      (first.toNat = 0xE0 → 0xA0 ≤ second.toNat) ∧ (first.toNat = 0xED → second.toNat ≤ 0x9F) ∧
        (first.toNat = 0xF0 → 0x90 ≤ second.toNat) ∧
          (first.toNat = 0xF4 → second.toNat ≤ 0x8F) := by
  have heq : ∀ b : UInt8, first = b ↔ first.toNat = b.toNat := fun b => UInt8.toNat_inj.symm
  unfold isSecond
  split_ifs with hE0 hED hF0 hF4
  all_goals
    simp only [heq, Bool.and_eq_true, decide_eq_true_iff, UInt8.le_iff_toNat_le, UInt8.reduceToNat,
      isContinuation_iff] at *
    omega

theorem toNat_lead : (0xC2 ≤ first && first ≤ 0xF4) = true ↔
    0xC2 ≤ first.toNat ∧ first.toNat ≤ 0xF4 := by
  rw [Bool.and_eq_true, decide_eq_true_iff, decide_eq_true_iff, UInt8.le_iff_toNat_le,
    UInt8.le_iff_toNat_le]
  rfl

theorem toNat_four : (0xF0 ≤ first && isSecond first second && isContinuation third) = true ↔
    0xF0 ≤ first.toNat ∧ isSecond first second = true ∧
      0x80 ≤ third.toNat ∧ third.toNat ≤ 0xBF := by
  rw [Bool.and_eq_true, Bool.and_eq_true, decide_eq_true_iff, UInt8.le_iff_toNat_le,
    isContinuation_iff, and_assoc]
  rfl

/-- Some of the bytes of a character are incomplete. -/
theorem isIncomplete_of_append (hne : bytes ≠ []) (hmore : more ≠ [])
    (h : bytes ++ more = String.utf8EncodeChar c) : isIncomplete bytes = true := by
  have hvalid := toNat_valid c
  obtain ⟨first, rest, rfl⟩ := List.exists_cons_of_ne_nil hne
  obtain ⟨m, more, rfl⟩ := List.exists_cons_of_ne_nil hmore
  rcases encodeChar_shape c with ⟨-, a, hbytes, -⟩ | ⟨hlo, hhi, a, b, hbytes, ha, hb⟩ |
    ⟨hlo, hhi, a, b, d, hbytes, ha, hb, hd⟩ | ⟨hlo, hhi, a, b, d, e, hbytes, ha, hb, hd, he⟩
  · rw [hbytes] at h
    have hlength := congrArg List.length h
    simp at hlength
  · rw [hbytes] at h
    match rest, h with
    | [], h =>
      obtain rfl := (List.cons.inj h).1
      exact toNat_lead.mpr (by omega)
    | _ :: _, h => simp at h
  · rw [hbytes] at h
    match rest, h with
    | [], h =>
      obtain rfl := (List.cons.inj h).1
      exact toNat_lead.mpr (by omega)
    | [second], h =>
      obtain ⟨rfl, hrest⟩ := List.cons.inj h
      obtain rfl := (List.cons.inj hrest).1
      exact isSecond_iff.mpr (by omega)
    | _ :: _ :: _, h => simp at h
  · rw [hbytes] at h
    match rest, h with
    | [], h =>
      obtain rfl := (List.cons.inj h).1
      exact toNat_lead.mpr (by omega)
    | [second], h =>
      obtain ⟨rfl, hrest⟩ := List.cons.inj h
      obtain rfl := (List.cons.inj hrest).1
      exact isSecond_iff.mpr (by omega)
    | [second, third], h =>
      obtain ⟨rfl, hrest⟩ := List.cons.inj h
      obtain ⟨rfl, htail⟩ := List.cons.inj hrest
      obtain rfl : third = d := (List.cons.inj htail).1
      exact toNat_four.mpr ⟨by omega, isSecond_iff.mpr (by omega), by omega⟩
    | _ :: _ :: _ :: _, h => simp at h

/-- A character of that number. -/
theorem exists_char {n : Nat} (h : n < 0xD800 ∨ (0xDFFF < n ∧ n < 0x110000)) :
    ∃ c : Char, c.toNat = n := by
  have hsize : UInt32.size = 4294967296 := rfl
  exact ⟨⟨UInt32.ofNatLT n (by omega), h⟩, rfl⟩

theorem exists_more_four
    (h : (0xF0 ≤ first && isSecond first second && isContinuation third) = true) :
    ∃ c more, more ≠ [] ∧ [first, second, third] ++ more = String.utf8EncodeChar c := by
  obtain ⟨hfour, hsecond, hlo, hhi⟩ := toNat_four.mp h
  have hbounds := isSecond_iff.mp hsecond
  obtain ⟨c, hc⟩ := @exists_char ((first.toNat - 0xF0) * 262144 + (second.toNat - 0x80) * 4096 +
    (third.toNat - 0x80) * 64) (by omega)
  rcases encodeChar_shape c with ⟨h, -⟩ | ⟨-, h, -⟩ | ⟨-, h, -⟩ |
    ⟨-, -, a, b, d, e, hbytes, ha, hb, hd, -⟩
  · omega
  · omega
  · omega
  · obtain rfl : a = first := UInt8.toNat_inj.mp (by omega)
    obtain rfl : b = second := UInt8.toNat_inj.mp (by omega)
    obtain rfl : d = third := UInt8.toNat_inj.mp (by omega)
    exact ⟨c, [e], List.cons_ne_nil _ _, hbytes.symm⟩

theorem exists_more_three (h : isSecond first second = true) :
    ∃ c more, more ≠ [] ∧ [first, second] ++ more = String.utf8EncodeChar c := by
  have hbounds := isSecond_iff.mp h
  by_cases hfour : 0xF0 ≤ first.toNat
  · have hthird : (0x80 : UInt8).toNat = 0x80 := rfl
    have hbyte := toNat_four.mpr ⟨hfour, h, Nat.le_of_eq hthird.symm, by omega⟩
    obtain ⟨c, more, -, hbytes⟩ := exists_more_four hbyte
    exact ⟨c, 0x80 :: more, List.cons_ne_nil _ _, hbytes⟩
  · obtain ⟨c, hc⟩ :=
      @exists_char ((first.toNat - 0xE0) * 4096 + (second.toNat - 0x80) * 64) (by omega)
    rcases encodeChar_shape c with ⟨h, -⟩ | ⟨-, h, -⟩ | ⟨-, -, a, b, d, hbytes, ha, hb, -⟩ | ⟨h, -⟩
    · omega
    · omega
    · obtain rfl : a = first := UInt8.toNat_inj.mp (by omega)
      obtain rfl : b = second := UInt8.toNat_inj.mp (by omega)
      exact ⟨c, [d], List.cons_ne_nil _ _, hbytes.symm⟩
    · omega

theorem exists_more_two (h : (0xC2 ≤ first && first ≤ 0xF4) = true) :
    ∃ c more, more ≠ [] ∧ [first] ++ more = String.utf8EncodeChar c := by
  have hbounds := toNat_lead.mp h
  by_cases hthree : 0xE0 ≤ first.toNat
  · -- one second byte that the first allows
    obtain ⟨second, hsecond⟩ : ∃ second, isSecond first second = true := by
      by_cases hE0 : first.toNat = 0xE0
      · exact ⟨0xA0, isSecond_iff.mpr (by simp only [UInt8.reduceToNat]; omega)⟩
      · by_cases hF0 : first.toNat = 0xF0
        · exact ⟨0x90, isSecond_iff.mpr (by simp only [UInt8.reduceToNat]; omega)⟩
        · exact ⟨0x80, isSecond_iff.mpr (by simp only [UInt8.reduceToNat]; omega)⟩
    obtain ⟨c, more, -, hbytes⟩ := exists_more_three hsecond
    exact ⟨c, second :: more, List.cons_ne_nil _ _, hbytes⟩
  · obtain ⟨c, hc⟩ := @exists_char ((first.toNat - 0xC0) * 64) (by omega)
    rcases encodeChar_shape c with ⟨h, -⟩ | ⟨-, -, a, b, hbytes, ha, -⟩ | ⟨h, -⟩ | ⟨h, -⟩
    · omega
    · obtain rfl : a = first := UInt8.toNat_inj.mp (by omega)
      exact ⟨c, [b], List.cons_ne_nil _ _, hbytes.symm⟩
    · omega
    · omega

/-- Bytes are incomplete exactly if they are some of the bytes of a character, but not all. -/
theorem isIncomplete_iff : isIncomplete bytes = true ↔
    bytes ≠ [] ∧ ∃ c more, more ≠ [] ∧ bytes ++ more = String.utf8EncodeChar c := by
  constructor
  · intro h
    match bytes, h with
    | [first], h => exact ⟨List.cons_ne_nil _ _, exists_more_two h⟩
    | [first, second], h => exact ⟨List.cons_ne_nil _ _, exists_more_three h⟩
    | [first, second, third], h => exact ⟨List.cons_ne_nil _ _, exists_more_four h⟩
  · rintro ⟨hne, c, more, hmore, h⟩
    exact isIncomplete_of_append hne hmore h

/-! ### What bytes begin with -/

/-- The bytes are those of the characters and what is left, with which no character begins. -/
theorem decodePrefix_spec (bytes : List UInt8) :
    bytes = encode (decodePrefix bytes).1 ++ (decodePrefix bytes).2 ∧
      ((decodePrefix bytes).2 = [] ∨ decodeChar? (decodePrefix bytes).2 = none) := by
  fun_induction decodePrefix bytes with
  | case1 => exact ⟨rfl, .inl rfl⟩
  | case2 b rest hnone => exact ⟨rfl, .inr hnone⟩
  | case3 b rest c hchar text left hrest ih =>
    obtain ⟨tail, htail⟩ := exists_of_decodeChar? hchar
    rw [htail, drop_encodeChar] at hrest ih
    rw [hrest] at ih
    refine ⟨?_, ih.2⟩
    rw [htail, encode_cons, List.append_assoc]
    exact congrArg (String.utf8EncodeChar c ++ ·) ih.1

theorem decode?_encode_append (text : List Char) (bytes : List UInt8) :
    decode? (encode text ++ bytes) = (decode? bytes).map (text ++ ·) := by
  induction text with
  | nil =>
    show decode? bytes = _
    cases decode? bytes <;> rfl
  | cons c text ih =>
    rw [encode_cons, List.append_assoc, decode?_encodeChar_append, ih, Option.map_map]
    rfl

theorem broken_encode_append : Broken (encode text ++ bytes) ↔ Broken bytes := by
  unfold Broken
  refine forall_congr' fun more => ?_
  rw [List.append_assoc, decode?_encode_append, Option.map_eq_none_iff]

/-- Where no character begins, more bytes help exactly if some of a character's are there. -/
theorem not_broken_left_iff (hleft : bytes = [] ∨ decodeChar? bytes = none) :
    ¬ Broken bytes ↔ bytes = [] ∨ isIncomplete bytes = true := by
  unfold Broken
  rw [not_forall]
  constructor
  · rintro ⟨more, hmore⟩
    obtain ⟨text, htext⟩ := Option.ne_none_iff_exists'.mp hmore
    have hbytes := decode?_eq_some_iff.mp htext
    by_cases hne : bytes = []
    · exact .inl hne
    have hnone := hleft.resolve_left hne
    cases text with
    | nil => exact absurd (List.append_eq_nil_iff.mp hbytes).1 hne
    | cons c text =>
      rw [encode_cons, List.append_eq_append_iff] at hbytes
      rcases hbytes with ⟨within, hchar, -⟩ | ⟨behind, hchar, -⟩
      · by_cases hwithin : within = []
        · rw [hwithin, List.append_nil] at hchar
          have hsome := @decodeChar?_append [] c
          rw [List.append_nil, hchar, hnone] at hsome
          cases hsome
        · exact .inr (isIncomplete_of_append hne hwithin hchar.symm)
      · rw [hchar, decodeChar?_append] at hnone
        cases hnone
  · rintro (rfl | hincomplete)
    · refine ⟨[], ?_⟩
      rw [List.append_nil, decode?]
      exact Option.some_ne_none _
    · obtain ⟨-, c, more, -, hchar⟩ := isIncomplete_iff.mp hincomplete
      refine ⟨more, ?_⟩
      have hencode : encode [c] = String.utf8EncodeChar c := List.append_nil _
      rw [hchar, ← hencode, decode?_encode]
      exact Option.some_ne_none _

/-- More bytes help exactly if nothing is left behind the characters, or some of the next one's
bytes. -/
theorem not_broken_iff : ¬ Broken bytes ↔
    (decodePrefix bytes).2 = [] ∨ isIncomplete (decodePrefix bytes).2 = true := by
  obtain ⟨hbytes, hleft⟩ := decodePrefix_spec bytes
  rw [← not_broken_left_iff hleft]
  conv => lhs; rw [hbytes, broken_encode_append]

theorem isSome_decode?_iff_left : (decode? bytes).isSome ↔ (decodePrefix bytes).2 = [] := by
  obtain ⟨hbytes, hleft⟩ := decodePrefix_spec bytes
  conv => lhs; rw [hbytes, decode?_encode_append, Option.isSome_map]
  generalize (decodePrefix bytes).2 = left at hleft
  constructor
  · intro hsome
    obtain ⟨text, rfl⟩ := isSome_decode?_iff.mp hsome
    cases text with
    | nil => rfl
    | cons c text =>
      rw [encode_cons, decodeChar?_append] at hleft
      exact hleft.resolve_right (Option.some_ne_none c)
  · rintro rfl
    rw [decode?]
    rfl

/-! ### Bytes that end inside a character -/

theorem decodePrefix_encode_append (hleft : left = [] ∨ decodeChar? left = none) :
    decodePrefix (encode text ++ left) = (text, left) := by
  induction text with
  | nil =>
    show decodePrefix left = _
    cases left with
    | nil => rw [decodePrefix]
    | cons b rest =>
      rw [decodePrefix, hleft.resolve_left (List.cons_ne_nil _ _)]
  | cons c text ih =>
    rw [encode_cons, List.append_assoc]
    obtain ⟨b, rest, hchar⟩ := List.exists_cons_of_ne_nil (@encodeChar_ne_nil c)
    have hbytes : String.utf8EncodeChar c ++ (encode text ++ left) =
        b :: (rest ++ (encode text ++ left)) := by
      rw [hchar]
      rfl
    rw [hbytes, decodePrefix, ← hbytes, decodeChar?_append]
    dsimp only
    rw [drop_encodeChar, ih]

theorem decodeChar?_of_isIncomplete (h : isIncomplete bytes = true) : decodeChar? bytes = none := by
  obtain ⟨-, c, more, hmore, hchar⟩ := isIncomplete_iff.mp h
  cases hfirst : decodeChar? bytes with
  | none => rfl
  | some first =>
    obtain ⟨rest, rfl⟩ := exists_of_decodeChar? hfirst
    have hwhole := @decodeChar?_append [] c
    rw [List.append_nil, ← hchar, List.append_assoc, decodeChar?_append] at hwhole
    obtain rfl : first = c := Option.some.inj hwhole
    rw [List.append_assoc] at hchar
    have hrest : rest ++ more = [] := List.append_right_eq_self.mp hchar
    exact absurd (List.append_eq_nil_iff.mp hrest).2 hmore

theorem endsInside_iff : EndsInside bytes ↔ isIncomplete (decodePrefix bytes).2 = true := by
  constructor
  · rintro ⟨text, left, rfl, hne, hchar⟩
    have hincomplete := isIncomplete_iff.mpr ⟨hne, hchar⟩
    rw [decodePrefix_encode_append (.inr (decodeChar?_of_isIncomplete hincomplete))]
    exact hincomplete
  · intro h
    obtain ⟨hne, hchar⟩ := isIncomplete_iff.mp h
    exact ⟨_, _, (decodePrefix_spec bytes).1, hne, hchar⟩

theorem endsInside_encode_append : EndsInside (encode text ++ bytes) ↔ EndsInside bytes := by
  obtain ⟨hbytes, hleft⟩ := decodePrefix_spec bytes
  rw [endsInside_iff, endsInside_iff]
  conv => lhs; rw [hbytes, ← List.append_assoc, ← encode_append, decodePrefix_encode_append hleft]

/-- Bytes are ill-formed if no more bytes help, or some of a character's are missing. -/
theorem not_isSome_decode?_iff : ¬ (decode? bytes).isSome ↔ Broken bytes ∨ EndsInside bytes := by
  rw [isSome_decode?_iff_left, endsInside_iff]
  constructor
  · intro hne
    by_cases hbroken : Broken bytes
    · exact .inl hbroken
    · exact .inr ((not_broken_iff.mp hbroken).resolve_left hne)
  · rintro (hbroken | hincomplete) hnil
    · exact not_broken_iff.mpr (.inl hnil) hbroken
    · rw [hnil] at hincomplete
      cases hincomplete

end Quilon.Utf8
