import Quilon.Library.Subslice
import Quilon.Library.Utf8Prefix

/-!
# ASCII among bytes of any kind

A byte below 128 never belongs to another character, nor to bytes that are ill-formed.  So decoding
goes on afresh behind it (`lossy_append_ascii`), every ASCII character of the result comes from such
a byte (`exists_of_lossy_eq`), and an ASCII needle is found in the bytes where it is found in the
decoded text (`firstIndexOf_lossy`).
-/

namespace Quilon.Utf8

variable {bytes front back rest needle : List UInt8} {text behind : List Char} {b : UInt8}
  {c : Char}

/-- Behind the first byte of a character there are only continuation bytes. -/
theorem le_of_mem_tail {first : UInt8} (h : String.utf8EncodeChar c = first :: rest)
    (hb : b ∈ rest) : 128 ≤ b := by
  rw [UInt8.le_iff_toNat_le]
  rcases encodeChar_shape c with ⟨-, a, hc, -⟩ | ⟨-, -, a, x, hc, -, hx⟩ |
    ⟨-, -, a, x, y, hc, -, hx, hy⟩ | ⟨-, -, a, x, y, z, hc, -, hx, hy, hz⟩
  all_goals
    rw [hc] at h
    obtain ⟨rfl, rfl⟩ := List.cons.inj h
    simp only [List.not_mem_nil, List.mem_cons, or_false] at hb
  · rcases hb with rfl
    show 128 ≤ _
    omega
  · rcases hb with rfl | rfl <;> show 128 ≤ _ <;> omega
  · rcases hb with rfl | rfl | rfl <;> show 128 ≤ _ <;> omega

/-- A byte below 128 in a character is all of it. -/
theorem encodeChar_of_ascii_mem (h : b ∈ String.utf8EncodeChar c) (hb : b < 128) :
    String.utf8EncodeChar c = [b] := by
  obtain ⟨first, rest, hc⟩ := List.exists_cons_of_ne_nil (@encodeChar_ne_nil c)
  rw [hc] at h
  have hnot : b ∉ rest := fun hmem => by
    have hle := le_of_mem_tail hc hmem
    rw [UInt8.le_iff_toNat_le] at hle
    rw [UInt8.lt_iff_toNat_lt] at hb
    omega
  have hfirst : b = first := (List.mem_cons.mp h).resolve_right hnot
  subst hfirst
  -- The character of the first byte alone would have fewer bytes.
  have hascii := encodeChar_asciiChar hb
  have hchar : c = asciiChar b := by
    have hleft := @decodeChar?_append [] c
    have hright := @decodeChar?_append rest (asciiChar b)
    rw [List.append_nil, hc] at hleft
    rw [hascii, List.singleton_append] at hright
    exact Option.some.inj (hleft.symm.trans hright)
  rw [hchar, hascii]

/-- A character that begins before a byte below 128 ends before it. -/
theorem exists_of_decodeChar?_append (h : decodeChar? (bytes ++ b :: rest) = some c) (hb : b < 128)
    (hne : bytes ≠ []) : ∃ more, bytes = String.utf8EncodeChar c ++ more := by
  obtain ⟨tail, htail⟩ := exists_of_decodeChar? h
  rcases List.append_eq_append_iff.mp htail with ⟨more, hmore, hbehind⟩ | ⟨more, hmore, -⟩
  · cases more with
    | nil => exact ⟨[], by rw [hmore, List.append_nil, List.append_nil]⟩
    | cons b' more =>
      obtain rfl : b = b' := (List.cons.inj hbehind).1
      have hmem : b ∈ String.utf8EncodeChar c := by simp [hmore]
      rw [encodeChar_of_ascii_mem hmem hb] at hmore
      have hlength := congrArg List.length hmore
      simp only [List.length_append, List.length_cons, List.length_nil] at hlength
      exact absurd (List.length_eq_zero_iff.mp (by omega)) hne
  · exact ⟨more, hmore⟩

theorem decodeChar?_append_ascii (hb : b < 128) (hne : bytes ≠ [])
    (h : decodeChar? bytes = none) (rest : List UInt8) :
    decodeChar? (bytes ++ b :: rest) = none := by
  cases hchar : decodeChar? (bytes ++ b :: rest) with
  | none => rfl
  | some c =>
    obtain ⟨more, rfl⟩ := exists_of_decodeChar?_append hchar hb hne
    rw [decodeChar?_append] at h
    cases h

theorem not_isContinuation_of_ascii (hb : b < 128) : isContinuation b = false := by
  rw [← Bool.not_eq_true, isContinuation_iff]
  rw [UInt8.lt_iff_toNat_lt] at hb
  have : (128 : UInt8).toNat = 128 := rfl
  omega

theorem not_isSecond_of_ascii (hb : b < 128) (first : UInt8) : isSecond first b = false := by
  rw [← Bool.not_eq_true, isSecond_iff]
  rw [UInt8.lt_iff_toNat_lt] at hb
  have : (128 : UInt8).toNat = 128 := rfl
  omega

/-- What one U+FFFD stands for ends before a byte below 128. -/
theorem illFormedLength_append (hb : b < 128) (hne : bytes ≠ []) (rest : List UInt8) :
    illFormedLength (bytes ++ b :: rest) = illFormedLength bytes ∧
      illFormedLength bytes ≤ bytes.length := by
  have hcontinuation := not_isContinuation_of_ascii hb
  have hsecond := not_isSecond_of_ascii hb
  match bytes, hne with
  | [first], _ =>
    have hone : illFormedLength ([first] ++ b :: rest) = 1 := by
      cases rest <;> simp [illFormedLength, hsecond]
    exact ⟨hone, Nat.le_refl _⟩
  | [first, second], _ =>
    refine ⟨by simp [illFormedLength, hcontinuation], ?_⟩
    show (if isSecond first second = true then 2 else 1) ≤ 2
    split <;> omega
  | first :: second :: third :: more, _ =>
    refine ⟨rfl, ?_⟩
    unfold illFormedLength
    simp only [List.length_cons]
    split_ifs <;> omega

/-- Decoding goes on afresh behind a byte below 128. -/
theorem lossy_append_ascii (hb : b < 128) (bytes rest : List UInt8) :
    lossy (bytes ++ b :: rest) = lossy bytes ++ asciiChar b :: lossy rest := by
  have hself := encodeChar_asciiChar hb
  fun_induction lossy bytes with
  | case1 =>
    have h := @lossy_encodeChar_append rest (asciiChar b)
    rw [hself] at h
    exact h
  | case2 first bytes c hchar ih =>
    obtain ⟨tail, htail⟩ := exists_of_decodeChar? hchar
    rw [htail, drop_encodeChar] at ih
    rw [htail, List.append_assoc, lossy_encodeChar_append, ih, drop_encodeChar]
    rfl
  | case3 first bytes hnone ih =>
    have hne : first :: bytes ≠ [] := List.cons_ne_nil _ _
    have hbehind := decodeChar?_append_ascii hb hne hnone rest
    obtain ⟨hlength, hle⟩ := illFormedLength_append hb hne rest
    rw [List.cons_append] at hbehind hlength ⊢
    rw [lossy, hbehind]
    simp only [hlength]
    rw [← List.cons_append, List.drop_append_of_le_length hle, ih]
    rfl

/-- A run of bytes below 128 is decoded on its own. -/
theorem lossy_append_needle (hneedle : ∀ b ∈ needle, b < 128) (hne : needle ≠ [])
    (front back : List UInt8) :
    lossy (front ++ needle ++ back) = lossy front ++ needle.map asciiChar ++ lossy back := by
  induction needle generalizing front with
  | nil => exact absurd rfl hne
  | cons b needle ih =>
    have hb := hneedle b List.mem_cons_self
    rw [List.append_assoc, List.cons_append, lossy_append_ascii hb]
    cases needle with
    | nil => simp
    | cons b' needle =>
      have hrest := ih (fun b' hb' => hneedle b' (List.mem_cons_of_mem _ hb'))
        (List.cons_ne_nil _ _) []
      rw [List.nil_append, lossy_nil, List.nil_append] at hrest
      rw [hrest]
      simp

/-- An ASCII character of the decoded text comes from a byte of its own. -/
theorem exists_of_lossy_eq (hb : b < 128) (h : lossy bytes = text ++ asciiChar b :: behind) :
    ∃ front back, bytes = front ++ b :: back ∧ lossy front = text ∧ lossy back = behind := by
  have hself := encodeChar_asciiChar hb
  fun_induction lossy bytes generalizing text with
  | case1 => exact absurd h (by simp)
  | case2 first bytes c hchar ih =>
    obtain ⟨tail, htail⟩ := exists_of_decodeChar? hchar
    rw [htail, drop_encodeChar] at h ih
    cases text with
    | nil =>
      obtain ⟨rfl, hbehind⟩ := List.cons.inj h
      rw [hself] at htail
      exact ⟨[], tail, htail, lossy_nil, hbehind⟩
    | cons c' text =>
      obtain ⟨rfl, hbehind⟩ := List.cons.inj h
      obtain ⟨front, back, htail', hfront, hback⟩ := ih hbehind
      refine ⟨String.utf8EncodeChar c ++ front, back, ?_, ?_, hback⟩
      · rw [htail, htail', List.append_assoc]
      · rw [lossy_encodeChar_append, hfront]
  | case3 first bytes hnone ih =>
    have hlossy : lossy (first :: bytes) =
        '\uFFFD' :: lossy ((first :: bytes).drop (illFormedLength (first :: bytes))) := by
      rw [lossy, hnone]
    cases text with
    | nil =>
      obtain ⟨hreplaced, -⟩ := List.cons.inj h
      have hnot : ∀ n < 128, '\uFFFD' ≠ Char.ofNat n := by decide
      exact absurd hreplaced (hnot b.toNat (UInt8.lt_iff_toNat_lt.mp hb))
    | cons c' text =>
      obtain ⟨rfl, hbehind⟩ := List.cons.inj h
      obtain ⟨front, back, hdrop, hfront, hback⟩ := ih hbehind
      have hbytes := List.take_append_drop (illFormedLength (first :: bytes)) (first :: bytes)
      rw [hdrop, ← List.append_assoc] at hbytes
      refine ⟨_, back, hbytes.symm, ?_, hback⟩
      -- Both sides of the byte are decoded alike, so what stands before it is too.
      have hall := lossy_append_ascii hb
        ((first :: bytes).take (illFormedLength (first :: bytes)) ++ front) back
      rw [hbytes, hlossy, hdrop, lossy_append_ascii hb, hfront] at hall
      exact (List.append_cancel_right hall).symm

/-- An ASCII needle in the decoded text comes from one in the bytes. -/
theorem exists_of_lossy_eq_needle (hneedle : ∀ b ∈ needle, b < 128) (hne : needle ≠ [])
    (h : lossy bytes = text ++ needle.map asciiChar ++ behind) :
    ∃ front back, bytes = front ++ needle ++ back ∧ lossy front = text ∧ lossy back = behind := by
  induction needle generalizing bytes text with
  | nil => exact absurd rfl hne
  | cons b needle ih =>
    rw [List.map_cons, List.append_assoc, List.cons_append] at h
    obtain ⟨front, rest, rfl, hfront, hrest⟩ :=
      exists_of_lossy_eq (hneedle b List.mem_cons_self) h
    by_cases hlast : needle = []
    · subst hlast
      exact ⟨front, rest, by simp, hfront, hrest⟩
    · obtain ⟨between, back, rfl, hbetween, hback⟩ :=
        @ih rest [] (fun b' hb' => hneedle b' (List.mem_cons_of_mem _ hb')) hlast
          (by simpa using hrest)
      rw [lossy_eq_nil_iff] at hbetween
      subst hbetween
      exact ⟨front, back, by simp, hfront, hback⟩

/-- More of the bytes, with one below 128 among them, is decoded to more. -/
theorem lossy_take_ascii {k : Nat} (hb : b < 128) (hk : front.length < k) :
    lossy ((front ++ b :: back).take k) =
      lossy front ++ asciiChar b :: lossy (back.take (k - front.length - 1)) := by
  obtain ⟨more, rfl⟩ : ∃ more, k = front.length + (more + 1) := ⟨k - front.length - 1, by omega⟩
  rw [List.take_length_add_append, List.take_succ_cons, lossy_append_ascii hb]
  congr 4
  omega

/-- What is found first in the bytes is found first in the decoded text. -/
theorem firstIndexOf_lossy {i : Nat} (hneedle : ∀ b ∈ needle, b < 128) (hne : needle ≠ [])
    (h : firstIndexOf needle bytes = some i) :
    firstIndexOf (needle.map asciiChar) (lossy bytes) = some (lossy (bytes.take i)).length := by
  have hmap : needle.map asciiChar ≠ [] := fun hnil => hne (List.map_eq_nil_iff.mp hnil)
  obtain ⟨⟨back, hback⟩, hleast⟩ := (firstIndexOf_eq_some_iff hne).mp h
  have hbytes : bytes = bytes.take i ++ needle ++ back := by
    rw [List.append_assoc, hback, List.take_append_drop]
  have hlossy := lossy_append_needle hneedle hne (bytes.take i) back
  rw [← hbytes] at hlossy
  rw [firstIndexOf_eq_some_iff hmap]
  refine ⟨⟨lossy back, ?_⟩, fun j hj hearlier => ?_⟩
  · rw [hlossy, List.append_assoc, List.drop_left]
  · obtain ⟨behind, hbehind⟩ := hearlier
    have hsplit : lossy bytes = (lossy bytes).take j ++ needle.map asciiChar ++ behind := by
      rw [List.append_assoc, hbehind, List.take_append_drop]
    obtain ⟨front, rest, hfront, hdecoded, -⟩ := exists_of_lossy_eq_needle hneedle hne hsplit
    have hle : i ≤ front.length := by
      by_contra hlt
      refine hleast front.length (by omega) ⟨rest, ?_⟩
      rw [hfront, List.append_assoc, List.drop_left]
    have hlength := congrArg List.length hdecoded
    rw [List.length_take] at hlength
    have htake : bytes.take front.length = front := by
      rw [hfront, List.append_assoc, List.take_left]
    have hstart : (bytes.take i).length = i := by
      rw [List.length_take]
      have := congrArg List.length hfront
      simp only [List.length_append] at this
      omega
    rcases Nat.lt_or_eq_of_le hle with hlt | heq
    · obtain ⟨b, needle', hfirst⟩ := List.exists_cons_of_ne_nil hne
      have hb : b < 128 := hneedle b (hfirst ▸ List.mem_cons_self)
      have hmore := @lossy_take_ascii (bytes.take i) (needle' ++ back) b front.length hb (by omega)
      rw [← List.cons_append, ← hfirst, ← List.append_assoc, ← hbytes, htake] at hmore
      rw [hmore, List.length_append] at hlength
      omega
    · rw [heq, htake] at hj
      omega

/-- What is not in the bytes is not in the decoded text. -/
theorem firstIndexOf_lossy_eq_none_iff (hneedle : ∀ b ∈ needle, b < 128) (hne : needle ≠ []) :
    firstIndexOf (needle.map asciiChar) (lossy bytes) = none ↔
      firstIndexOf needle bytes = none := by
  constructor
  · intro hnone
    cases h : firstIndexOf needle bytes with
    | none => rfl
    | some i =>
      rw [firstIndexOf_lossy hneedle hne h] at hnone
      cases hnone
  · intro hnone
    have hmap : needle.map asciiChar ≠ [] := fun hnil => hne (List.map_eq_nil_iff.mp hnil)
    rw [firstIndexOf_eq_none_iff hne] at hnone
    rw [firstIndexOf_eq_none_iff hmap]
    rintro j ⟨behind, hbehind⟩
    have hsplit : lossy bytes = (lossy bytes).take j ++ needle.map asciiChar ++ behind := by
      rw [List.append_assoc, hbehind, List.take_append_drop]
    obtain ⟨front, rest, hfront, -, -⟩ := exists_of_lossy_eq_needle hneedle hne hsplit
    refine hnone front.length ⟨rest, ?_⟩
    rw [hfront, List.append_assoc, List.drop_left]

end Quilon.Utf8
