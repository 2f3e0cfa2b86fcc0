import Mathlib.Data.List.Basic
import Mathlib.Tactic.Common

/-!
# UTF-8 as lists of bytes

`encode`, strict decoding (`decode?`) and decoding with U+FFFD in the place of what is ill-formed
(`lossy`), over the core library's encoding of one character.

* `decode?_eq_some_iff`: `decode?` inverts `encode`;
* `lossy_encode_append`: what is well-formed is decoded as it is, whatever comes behind it.
-/

namespace Quilon.Utf8

def encode (text : List Char) : List UInt8 := text.flatMap String.utf8EncodeChar

/-- The character the bytes begin with. -/
def decodeChar? (bytes : List UInt8) : Option Char :=
  bytes.toByteArray.utf8DecodeChar? 0

def isContinuation (b : UInt8) : Bool := 0x80 ≤ b && b ≤ 0xBF

/-- Whether `second` may stand behind `first` in a sequence of three or four bytes. -/
def isSecond (first second : UInt8) : Bool :=
  if first = 0xE0 then 0xA0 ≤ second && second ≤ 0xBF
  else if first = 0xED then 0x80 ≤ second && second ≤ 0x9F
  else if first = 0xF0 then 0x90 ≤ second && second ≤ 0xBF
  else if first = 0xF4 then 0x80 ≤ second && second ≤ 0x8F
  else 0xE1 ≤ first && first ≤ 0xF3 && isContinuation second

/-- How many of the bytes one U+FFFD stands for, where no character begins: as many as some
well-formed sequence begins with, and at least one. -/
def illFormedLength : List UInt8 → Nat
  | first :: second :: third :: _ =>
    if isSecond first second then if 0xF0 ≤ first && isContinuation third then 3 else 2 else 1
  | [first, second] => if isSecond first second then 2 else 1
  | _ => 1

/-- `std::str::from_utf8` -/
def decode? : List UInt8 → Option (List Char)
  | [] => some []
  | b :: rest =>
    match decodeChar? (b :: rest) with
    | none => none
    | some c => (decode? ((b :: rest).drop c.utf8Size)).map (c :: ·)
termination_by bytes => bytes.length
decreasing_by
  have := c.utf8Size_pos
  simp only [List.length_drop, List.length_cons]
  omega

/-- `String::from_utf8_lossy` -/
def lossy : List UInt8 → List Char
  | [] => []
  | b :: rest =>
    match decodeChar? (b :: rest) with
    | some c => c :: lossy ((b :: rest).drop c.utf8Size)
    | none => '\uFFFD' :: lossy ((b :: rest).drop (illFormedLength (b :: rest)))
termination_by bytes => bytes.length
decreasing_by
  · have := c.utf8Size_pos
    simp only [List.length_drop, List.length_cons]
    omega
  · have : 0 < illFormedLength (b :: rest) := by
      unfold illFormedLength
      split <;> (try split) <;> (try split) <;> omega
    simp only [List.length_drop, List.length_cons]
    omega

variable {text front : List Char} {bytes rest : List UInt8} {c : Char}

theorem length_encodeChar (c : Char) : (String.utf8EncodeChar c).length = c.utf8Size :=
  String.length_utf8EncodeChar c

theorem encode_cons : encode (c :: text) = String.utf8EncodeChar c ++ encode text := rfl

theorem encode_append : encode (front ++ text) = encode front ++ encode text := List.flatMap_append

theorem decodeChar?_append : decodeChar? (String.utf8EncodeChar c ++ rest) = some c := by
  unfold decodeChar?
  rw [List.toByteArray_append]
  exact ByteArray.utf8DecodeChar?_utf8EncodeChar_append

theorem exists_of_decodeChar? (h : decodeChar? bytes = some c) :
    ∃ rest, bytes = String.utf8EncodeChar c ++ rest := by
  obtain ⟨tail, htail⟩ := ByteArray.exists_of_utf8DecodeChar?_eq_some h
  refine ⟨tail.data.toList, ?_⟩
  rw [← List.toByteArray_inj, htail, List.toByteArray_append]
  congr 1
  exact ByteArray.ext List.data_toByteArray.symm

theorem drop_encodeChar : (String.utf8EncodeChar c ++ rest).drop c.utf8Size = rest := by
  rw [← length_encodeChar, List.drop_left]

theorem encodeChar_ne_nil : String.utf8EncodeChar c ≠ [] := by
  intro h
  have hlength := length_encodeChar c
  have hpos := c.utf8Size_pos
  rw [h, List.length_nil] at hlength
  omega

/-! ### Decoding what was encoded -/

theorem decode?_encodeChar_append :
    decode? (String.utf8EncodeChar c ++ rest) = (decode? rest).map (c :: ·) := by
  cases hbytes : String.utf8EncodeChar c ++ rest with
  | nil => exact absurd (List.append_eq_nil_iff.mp hbytes).1 encodeChar_ne_nil
  | cons b tail =>
    rw [decode?, ← hbytes, decodeChar?_append]
    simp only [drop_encodeChar]

theorem lossy_encodeChar_append :
    lossy (String.utf8EncodeChar c ++ rest) = c :: lossy rest := by
  cases hbytes : String.utf8EncodeChar c ++ rest with
  | nil => exact absurd (List.append_eq_nil_iff.mp hbytes).1 encodeChar_ne_nil
  | cons b tail =>
    rw [lossy, ← hbytes, decodeChar?_append]
    simp only [drop_encodeChar]

theorem decode?_encode (text : List Char) : decode? (encode text) = some text := by
  induction text with
  | nil => rw [encode, List.flatMap_nil, decode?]
  | cons c text ih =>
    rw [encode_cons, decode?_encodeChar_append, ih]
    rfl

theorem lossy_encode_append : lossy (encode text ++ rest) = text ++ lossy rest := by
  induction text with
  | nil => rfl
  | cons c text ih =>
    rw [encode_cons, List.append_assoc, lossy_encodeChar_append, ih]
    rfl

theorem lossy_nil : lossy [] = [] := by rw [lossy]

@[simp]
theorem lossy_encode (text : List Char) : lossy (encode text) = text := by
  have h := @lossy_encode_append text []
  rwa [List.append_nil, lossy_nil, List.append_nil] at h

theorem decode?_eq_some_iff : decode? bytes = some text ↔ bytes = encode text := by
  constructor
  · intro h
    fun_induction decode? bytes generalizing text with
    | case1 =>
      obtain rfl := Option.some.inj h
      rfl
    | case2 => cases h
    | case3 b rest c hchar ih =>
      obtain ⟨more, hmore, rfl⟩ := Option.map_eq_some_iff.mp h
      obtain ⟨tail, htail⟩ := exists_of_decodeChar? hchar
      have hrest := ih hmore
      rw [htail, drop_encodeChar] at hrest
      rw [htail, hrest, encode_cons]
  · rintro rfl
    exact decode?_encode text

theorem isSome_decode?_iff : (decode? bytes).isSome ↔ ∃ text, bytes = encode text := by
  rw [Option.isSome_iff_exists]
  simp only [decode?_eq_some_iff]

theorem lossy_eq_nil_iff : lossy bytes = [] ↔ bytes = [] := by
  constructor
  · intro h
    cases bytes with
    | nil => rfl
    | cons b rest =>
      rw [lossy] at h
      split at h <;> cases h
  · rintro rfl
    exact lossy_nil

/-- No more characters are decoded than there are bytes. -/
theorem length_lossy_le (bytes : List UInt8) : (lossy bytes).length ≤ bytes.length := by
  induction bytes using lossy.induct with
  | case1 =>
    rw [lossy_nil]
    exact Nat.le_refl _
  | case2 b rest c hdecode ih =>
    have hpos := c.utf8Size_pos
    rw [lossy, hdecode]
    rw [List.length_drop, List.length_cons] at ih
    simp only [List.length_cons]
    omega
  | case3 b rest hdecode ih =>
    rw [lossy, hdecode]
    rw [List.length_drop, List.length_cons] at ih
    have hpos : 0 < illFormedLength (b :: rest) := by
      unfold illFormedLength
      split <;> (try split) <;> (try split) <;> omega
    simp only [List.length_cons]
    omega

/-- Well-formed bytes are those that decoding and encoding give back. -/
theorem isSome_decode?_iff_encode_lossy :
    (decode? bytes).isSome ↔ encode (lossy bytes) = bytes := by
  rw [isSome_decode?_iff]
  constructor
  · rintro ⟨text, rfl⟩
    rw [lossy_encode]
  · intro h
    exact ⟨lossy bytes, h.symm⟩

theorem lossy_append (h : (decode? bytes).isSome) :
    lossy (bytes ++ rest) = lossy bytes ++ lossy rest := by
  obtain ⟨text, rfl⟩ := isSome_decode?_iff.mp h
  rw [lossy_encode_append, lossy_encode]

theorem isSome_decode?_append (h : (decode? bytes).isSome) (h' : (decode? rest).isSome) :
    (decode? (bytes ++ rest)).isSome := by
  rw [isSome_decode?_iff] at *
  obtain ⟨text, rfl⟩ := h
  obtain ⟨text', rfl⟩ := h'
  exact ⟨text ++ text', encode_append.symm⟩

/-! ### ASCII -/

def asciiChar (b : UInt8) : Char := Char.ofNat b.toNat

theorem encodeChar_asciiChar {b : UInt8} (h : b < 128) :
    String.utf8EncodeChar (asciiChar b) = [b] := by
  have hall : ∀ n < 128, String.utf8EncodeChar (Char.ofNat n) = [UInt8.ofNat n] := by decide
  have hlt : b.toNat < 128 := UInt8.lt_iff_toNat_lt.mp h
  rw [asciiChar, hall b.toNat hlt, UInt8.ofNat_toNat]

theorem encode_ascii (h : ∀ b ∈ bytes, b < 128) : encode (bytes.map asciiChar) = bytes := by
  induction bytes with
  | nil => rfl
  | cons b bytes ih =>
    rw [List.map_cons, encode_cons, encodeChar_asciiChar (h b List.mem_cons_self),
      ih fun b' hb' => h b' (List.mem_cons_of_mem _ hb')]
    rfl

theorem lossy_ascii (h : ∀ b ∈ bytes, b < 128) : lossy bytes = bytes.map asciiChar := by
  have hencode := encode_ascii h
  rw [← hencode, lossy_encode, hencode]

end Quilon.Utf8
