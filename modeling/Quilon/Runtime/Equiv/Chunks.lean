import Mathlib.Data.Bool.AllAny
import Quilon.Runtime.Equiv.Http
import Quilon.Runtime.Equiv.Text
import Quilon.Runtime.Framing

/-!
# What the chunk decoder accepts

A chunked body is a sequence of chunks, each a size line, as many bytes as it says and a line end, then a
line of size zero; a size line holds hexadecimal digits, behind which an extension may stand.  The decoder
inverts every such encoding (`dechunkLoop_encode`), and forms no sum or range that is out of bounds
(`dechunkTurns_eq`).  It reads a sign before the digits too, and accepts exactly the grammar where none of
the lines it reads has one (`dechunk_exact`).
-/

namespace Quilon.Http

open Utf8
open Text (byteRange)

/-! ### The grammar -/

/-- What a size line says before its extension. -/
def sizeText (line : List UInt8) : Option (List Char) :=
  (fromUtf8 (line.takeWhile (· ≠ 59))).map trim

def hexDigits : List Char := "0123456789abcdefABCDEF".toList

/-- The number digits stand for behind those that stand for `total`. -/
def valueFrom (radix total : Nat) (text : List Char) : Nat :=
  text.foldl (fun total c => total * radix + (toDigit radix c).getD 0) total

/-- A number in hexadecimal digits. -/
structure IsHex (text : List Char) (n : Nat) : Prop where
  ne : text ≠ []
  digits : ∀ c ∈ text, c ∈ hexDigits
  value : valueFrom 16 0 text = n

def SizeLine (line : List UInt8) (n : Nat) : Prop := ∃ text, sizeText line = some text ∧ IsHex text n

/-- The digits have a plus sign before them. -/
def SignedLine (line : List UInt8) (n : Nat) : Prop :=
  ∃ text, sizeText line = some ('+' :: text) ∧ IsHex text n

/-- A chunk behind a line that says its size. -/
structure Chunk (isSize : List UInt8 → Nat → Prop) where
  line : List UInt8
  data : List UInt8
  one_line : ¬ crlf <:+: line
  size : isSize line data.length
  data_ne : data ≠ []

namespace Chunk

variable {isSize kind : List UInt8 → Nat → Prop}

def encode (chunk : Chunk isSize) : List UInt8 := chunk.line ++ crlf ++ chunk.data ++ crlf

def map (f : ∀ line n, isSize line n → kind line n) (chunk : Chunk isSize) : Chunk kind :=
  ⟨chunk.line, chunk.data, chunk.one_line, f _ _ chunk.size, chunk.data_ne⟩

end Chunk

variable {isSize : List UInt8 → Nat → Prop}

/-- The bytes the chunks carry. -/
def carried (chunks : List (Chunk isSize)) : List UInt8 := chunks.flatMap (·.data)

/-- The chunks and the last line, with anything behind them. -/
def Encodes (chunks : List (Chunk isSize)) (last input : List UInt8) : Prop :=
  ¬ crlf <:+: last ∧ isSize last 0 ∧
    ∃ trailing, input = chunks.flatMap Chunk.encode ++ (last ++ crlf ++ trailing)

/-! ### Sizes -/

theorem fromUtf8_encode (text : List Char) : fromUtf8 (encode text) = some text := by
  have hbytes : (⟨(encode text).toArray⟩ : ByteArray) = (String.ofList text).toByteArray := by
    rw [String.toByteArray_ofList, List.utf8Encode]
    exact ByteArray.ext List.data_toByteArray.symm
  unfold fromUtf8 String.fromUTF8?
  rw [hbytes, dif_pos (String.ofList text).isValidUTF8]
  exact congrArg some String.toList_ofList

theorem toDigit_hex {c : Char} : (toDigit 16 c).isSome ↔ c ∈ hexDigits := by
  have hall : ∀ n < 128, ((toDigit 16 (Char.ofNat n)).isSome ↔ Char.ofNat n ∈ hexDigits) := by
    decide +kernel
  by_cases hascii : c.toNat < 128
  · have hc := hall c.toNat hascii
    rwa [Char.ofNat_toNat] at hc
  · have hlow : ∀ d : Char, d.toNat < 128 → ¬ c ≤ d := fun d hd hle => hascii (Nat.lt_of_le_of_lt hle hd)
    have hnot : ∀ d ∈ hexDigits, d.toNat < 128 := List.all_iff_forall_prop.mp (by decide)
    have hnone : toDigit 16 c = none := by
      unfold toDigit
      simp [hlow '9' (by decide), hlow 'z' (by decide), hlow 'Z' (by decide)]
    rw [hnone]
    simp only [Option.isSome_none, Bool.false_eq_true, false_iff]
    exact fun hmem => hascii (hnot c hmem)

/-- Digits are read as the number they stand for, unless it overflows. -/
theorem parseDigits_eq_some_iff {radix total n : Nat} {text : List Char} (htotal : total ≤ usizeMax)
    (hradix : 0 < radix) :
    parseDigits radix total text = some n ↔
      (∀ c ∈ text, (toDigit radix c).isSome) ∧ valueFrom radix total text = n ∧ n ≤ usizeMax := by
  have hgrows : ∀ (total : Nat) (text : List Char), total ≤ valueFrom radix total text := by
    intro total text
    induction text generalizing total with
    | nil => exact Nat.le_refl _
    | cons c text ih =>
      have hstep : total ≤ total * radix + (toDigit radix c).getD 0 :=
        Nat.le_trans (Nat.le_mul_of_pos_right total hradix) (Nat.le_add_right _ _)
      exact Nat.le_trans hstep (ih _)
  induction text generalizing total with
  | nil =>
    unfold parseDigits valueFrom
    rw [Option.some.injEq, List.foldl_nil]
    constructor
    · rintro rfl
      exact ⟨fun c hc => (List.not_mem_nil hc).elim, rfl, htotal⟩
    · rintro ⟨_, rfl, _⟩
      rfl
  | cons c text ih =>
    unfold parseDigits
    rw [List.forall_mem_cons]
    cases hdigit : toDigit radix c with
    | none => simp
    | some digit =>
      have hvalue : valueFrom radix total (c :: text) =
          valueFrom radix (total * radix + digit) text := by
        unfold valueFrom
        rw [List.foldl_cons, hdigit]
        rfl
      dsimp only
      rw [hvalue]
      split
      case isTrue hover =>
        have hle := hgrows (total * radix + digit) text
        constructor
        · intro h
          cases h
        · rintro ⟨_, rfl, hmax⟩
          omega
      case isFalse hover =>
        have hnext : total * radix + digit ≤ usizeMax := Nat.le_of_not_lt hover
        refine (ih hnext).trans ?_
        simp

/-- A chunk size is read from a size line, and from one with a sign. -/
theorem parseDigits_hex {text : List Char} {n : Nat} (hne : text ≠ []) :
    parseDigits 16 0 text = some n ↔ n ≤ usizeMax ∧ IsHex text n := by
  rw [parseDigits_eq_some_iff (Nat.zero_le _) (by decide)]
  simp only [toDigit_hex]
  exact ⟨fun ⟨hdigits, hvalue, hmax⟩ => ⟨hmax, hne, hdigits, hvalue⟩,
    fun ⟨hmax, _, hdigits, hvalue⟩ => ⟨hdigits, hvalue, hmax⟩⟩

theorem fromStrRadix_hex {text : List Char} {n : Nat} :
    fromStrRadix 16 text = some n ↔
      n ≤ usizeMax ∧ (IsHex text n ∨ ∃ digits, text = '+' :: digits ∧ IsHex digits n) := by
  have hplus : ∀ {rest : List Char}, ¬ IsHex ('+' :: rest) n :=
    fun h => absurd (h.digits '+' List.mem_cons_self) (by decide)
  have hempty : ¬ IsHex [] n := fun h => h.ne rfl
  unfold fromStrRadix
  split
  · simp [hempty]
  · simp [hplus, hempty]
  · have hminus : ¬ IsHex ['-'] n := fun h => absurd (h.digits '-' List.mem_cons_self) (by decide)
    simp [hminus]
  · next digits hdigits =>
    have hne : digits ≠ [] := fun hnil => hdigits (by rw [hnil])
    rw [parseDigits_hex hne]
    simp [hplus]
  · next hnil hplus hminus hsigned =>
    have hunsigned : ∀ digits, text ≠ '+' :: digits := hsigned
    rw [parseDigits_hex hnil]
    simp [hunsigned]

/-- A chunk size is read from a size line, and from one with a sign. -/
theorem chunkSize_eq_some_iff {line : List UInt8} {n : Nat} :
    chunkSize line = some n ↔ n ≤ usizeMax ∧ (SizeLine line n ∨ SignedLine line n) := by
  unfold chunkSize SizeLine SignedLine sizeText
  cases fromUtf8 (line.takeWhile (· ≠ 59)) with
  | none => simp
  | some text => simp [fromStrRadix_hex]

/-! ### Writing sizes -/

/-- Every number can be written. -/
theorem exists_isHex (n : Nat) : ∃ text, IsHex text n := by
  have hany : ∀ d < 16, hexDigits.any (fun c => toDigit 16 c = some d) := by decide
  have hdigit : ∀ d < 16, ∃ c ∈ hexDigits, toDigit 16 c = some d :=
    fun d hd => List.any_iff_exists_prop.mp (hany d hd)
  induction n using Nat.strongRecOn with
  | ind n ih =>
    obtain ⟨c, hc, hvalue⟩ := hdigit (n % 16) (Nat.mod_lt _ (by decide))
    by_cases hsmall : n < 16
    · refine ⟨[c], List.cons_ne_nil _ _, fun c' hc' => List.mem_singleton.mp hc' ▸ hc, ?_⟩
      simp [valueFrom, hvalue, Nat.mod_eq_of_lt hsmall]
    · obtain ⟨front, hfront⟩ := ih (n / 16) (by omega)
      refine ⟨front ++ [c], by simp, fun c' hc' => ?_, ?_⟩
      · rcases List.mem_append.mp hc' with hc' | hc'
        · exact hfront.digits c' hc'
        · exact List.mem_singleton.mp hc' ▸ hc
      · have hbefore : front.foldl (fun total c => total * 16 + (toDigit 16 c).getD 0) 0 = n / 16 :=
          hfront.value
        rw [valueFrom, List.foldl_append, hbefore, List.foldl_cons, List.foldl_nil, hvalue]
        show n / 16 * 16 + n % 16 = n
        omega

theorem trim_of_hex {text : List Char} (h : ∀ c ∈ text, c ∈ hexDigits) : trim text = text := by
  have hnone : ∀ c ∈ hexDigits, isWhitespace c = false := List.all_iff_forall_prop.mp (by decide)
  have hkept : ∀ list : List Char, (∀ c ∈ list, c ∈ hexDigits) → list.dropWhile isWhitespace = list := by
    intro list hlist
    cases list with
    | nil => rfl
    | cons c list =>
      rw [List.dropWhile_cons_of_neg]
      rw [hnone c (hlist c List.mem_cons_self)]
      exact Bool.false_ne_true
  unfold trim
  rw [hkept text h, hkept text.reverse fun c hc => h c (List.mem_reverse.mp hc), List.reverse_reverse]

/-- A size with any extension behind it is a size line. -/
theorem sizeLine_of_isHex {text : List Char} {n : Nat} (h : IsHex text n) {extension : List UInt8}
    (hextension : ∀ b ∈ extension.head?, b = 59) : SizeLine (encode text ++ extension) n := by
  refine ⟨text, ?_, h⟩
  have hbytes : ∀ c ∈ hexDigits, (String.utf8EncodeChar c).all (· ≠ 59) :=
    List.all_iff_forall_prop.mp (by decide)
  have hdigits : ∀ b ∈ encode text, decide (b ≠ 59) = true := by
    intro b hb
    obtain ⟨c, hc, hbc⟩ := List.mem_flatMap.mp hb
    exact List.all_eq_true.mp (hbytes c (h.digits c hc)) b hbc
  have hfield : (encode text ++ extension).takeWhile (· ≠ 59) = encode text := by
    rw [List.takeWhile_append_of_pos hdigits]
    cases extension with
    | nil => exact List.append_nil _
    | cons b extension =>
      obtain rfl := hextension b rfl
      exact List.append_nil _
  rw [sizeText, hfield, fromUtf8_encode]
  exact congrArg some (trim_of_hex h.digits)

/-- Data that is not empty can be sent with any extension that is one line. -/
theorem exists_chunk {data extension : List UInt8} (hne : data ≠ [])
    (hextension : ∀ b ∈ extension.head?, b = 59) (hone : ¬ crlf <:+: extension) :
    ∃ (chunk : Chunk SizeLine) (text : List Char), IsHex text data.length ∧
      chunk.line = encode text ++ extension ∧ chunk.data = data := by
  obtain ⟨text, htext⟩ := exists_isHex data.length
  have hbytes : ∀ c ∈ hexDigits, CR ∉ String.utf8EncodeChar c :=
    List.all_iff_forall_prop.mp (by decide)
  have hcr : CR ∉ encode text := by
    intro hmem
    obtain ⟨c, hc, hcr⟩ := List.mem_flatMap.mp hmem
    exact hbytes c (htext.digits c hc) hcr
  have hline : ¬ crlf <:+: encode text ++ extension := by
    rintro ⟨front, back, hinfix⟩
    rw [List.append_assoc, List.append_eq_append_iff] at hinfix
    rcases hinfix with ⟨within, htextEq, hbehind⟩ | ⟨between, hfront, hbehind⟩
    · cases within with
      | nil => exact hone ⟨[], back, hbehind⟩
      | cons b within =>
        obtain rfl : CR = b := (List.cons.inj hbehind).1
        exact hcr (htextEq ▸ List.mem_append_right _ List.mem_cons_self)
    · exact hone ⟨between, back, (List.append_assoc _ _ _).trans hbehind.symm⟩
  exact ⟨⟨_, data, hline, sizeLine_of_isHex htext hextension, hne⟩, text, htext, rfl, rfl⟩

/-! ### Lines -/

variable {line rest decoded body input last : List UInt8} {maxBodySize : Nat}

/-- A line ends at the first line end behind it. -/
theorem findSubslice_line (hline : ¬ crlf <:+: line) (rest : List UInt8) :
    findSubslice (line ++ (crlf ++ rest)) crlf = some line.length := by
  refine (firstIndexOf_eq_some_iff (by decide)).mpr ⟨?_, fun j hj hearlier => ?_⟩
  · rw [List.drop_left]
    exact List.prefix_append crlf rest
  · rcases Nat.lt_or_ge (j + 1) line.length with hwithin | hend
    · have hstands : crlf <+: line.drop j := prefix_drop_of_append hearlier hwithin
      exact hline (List.IsInfix.trans (List.IsPrefix.isInfix hstands) (List.drop_suffix j line).isInfix)
    · -- its second byte would be the first of the line end
      obtain ⟨b, hb⟩ : ∃ b, line.drop j = [b] := by
        apply List.length_eq_one_iff.mp
        rw [List.length_drop]
        omega
      rw [List.drop_append_of_le_length (Nat.le_of_lt hj), hb] at hearlier
      obtain ⟨back, hback⟩ := hearlier
      have hsecond : LF = CR := (List.cons.inj (List.cons.inj hback).2).1
      exact absurd hsecond (by decide)

theorem line_of_findSubslice {lineEnd : Nat} (h : findSubslice input crlf = some lineEnd) :
    input = input.take lineEnd ++ (crlf ++ input.drop (lineEnd + 2)) ∧
      ¬ crlf <:+: input.take lineEnd ∧ lineEnd + 2 ≤ input.length := by
  have hne : crlf ≠ [] := by decide
  obtain ⟨hfound, hleast⟩ := (firstIndexOf_eq_some_iff hne).mp h
  have hend : lineEnd + 2 ≤ input.length := add_length_le_of_prefix_drop hfound hne
  obtain ⟨back, hback⟩ := hfound
  refine ⟨?_, ?_, hend⟩
  · have hdrop : input.drop (lineEnd + 2) = back := by
      rw [← List.drop_drop, ← hback]
      rfl
    rw [hdrop, hback, List.take_append_drop]
  · rintro ⟨front, back', hinfix⟩
    have hlength := congrArg List.length hinfix
    rw [List.length_append, List.length_append, List.length_take, Nat.min_eq_left (by omega)] at hlength
    have hbefore : front.length + 2 ≤ lineEnd := by
      have htwo : crlf.length = 2 := rfl
      omega
    apply hleast front.length (by omega)
    refine ⟨back' ++ input.drop lineEnd, ?_⟩
    conv => rhs; rw [← List.take_append_drop lineEnd input, ← hinfix, List.append_assoc,
      List.append_assoc, List.drop_left]

/-! ### One turn -/

theorem dechunkLoop_last (hline : ¬ crlf <:+: line) (hsize : chunkSize line = some 0)
    (trailing : List UInt8) :
    dechunkLoop maxBodySize decoded (line ++ (crlf ++ trailing)) = .complete decoded := by
  rw [dechunkLoop]
  simp only [findSubslice_line hline, List.take_left, hsize]

theorem dechunkLoop_chunk {data : List UInt8} (hline : ¬ crlf <:+: line)
    (hsize : chunkSize line = some data.length) (hne : data ≠ []) (hlength : data.length ≤ isizeMax)
    (hmax : decoded.length + data.length ≤ usizeMax) (hcap : decoded.length + data.length ≤ maxBodySize)
    (rest : List UInt8) :
    dechunkLoop maxBodySize decoded (line ++ (crlf ++ (data ++ (crlf ++ rest)))) =
      dechunkLoop maxBodySize (decoded ++ data) rest := by
  have hpos := List.length_pos_iff.mpr hne
  obtain ⟨n, hn⟩ : ∃ n, data.length = n + 1 := ⟨data.length - 1, by omega⟩
  have hbehind : (line ++ (crlf ++ (data ++ (crlf ++ rest)))).drop (line.length + 2) =
      data ++ (crlf ++ rest) := by
    rw [List.drop_length_add_append]
    rfl
  have hover : ¬ (decide (usizeMax < decoded.length + data.length) ||
      decide (maxBodySize < decoded.length + data.length)) = true := by
    rw [Bool.or_eq_true, decide_eq_true_iff, decide_eq_true_iff]
    omega
  have hlong : ¬ usizeMax < data.length + 2 := by
    have hbounds : isizeMax + 2 ≤ usizeMax := by decide
    omega
  have hshort : ¬ (data ++ (crlf ++ rest)).length < data.length + 2 := by
    rw [List.length_append, List.length_append]
    have htwo : crlf.length = 2 := rfl
    omega
  have htake : (data ++ (crlf ++ rest)).take (data.length + 2) = data ++ crlf := by
    rw [List.take_length_add_append]
    rfl
  have hdrop : (data ++ (crlf ++ rest)).drop (data.length + 2) = rest := by
    rw [List.drop_length_add_append]
    rfl
  rw [hn] at hsize
  rw [dechunkLoop]
  simp only [findSubslice_line hline, List.take_left, hsize, hbehind]
  rw [← hn, if_neg hover, if_neg hlong, if_neg hshort, htake, List.drop_left, if_neg (by simp),
    List.take_left, hdrop]

/-! ### Whole bodies -/

/-- The decoder gives back what was encoded. -/
theorem dechunkLoop_encode {chunks : List (Chunk isSize)}
    (hsize : ∀ line n, n ≤ usizeMax → isSize line n → chunkSize line = some n)
    (hencodes : Encodes chunks last input) (hinput : decoded.length + input.length ≤ isizeMax)
    (hcap : decoded.length + (carried chunks).length ≤ maxBodySize) :
    dechunkLoop maxBodySize decoded input = .complete (decoded ++ carried chunks) := by
  obtain ⟨hlast, hzero, trailing, rfl⟩ := hencodes
  have hbounds : isizeMax ≤ usizeMax := by decide
  induction chunks generalizing decoded with
  | nil =>
    rw [List.flatMap_nil, List.nil_append, List.append_assoc,
      dechunkLoop_last hlast (hsize _ _ (Nat.zero_le _) hzero)]
    exact congrArg BodyProgress.complete (List.append_nil _).symm
  | cons chunk chunks ih =>
    have hcarried : carried (chunk :: chunks) = chunk.data ++ carried chunks := List.flatMap_cons
    have hencode : (chunk :: chunks).flatMap Chunk.encode ++ (last ++ crlf ++ trailing) =
        chunk.line ++ (crlf ++ (chunk.data ++ (crlf ++
          (chunks.flatMap Chunk.encode ++ (last ++ crlf ++ trailing))))) := by
      simp only [List.flatMap_cons, Chunk.encode, List.append_assoc]
    rw [hcarried, List.length_append] at hcap
    rw [hencode] at hinput ⊢
    simp only [List.length_append] at hinput
    have hmax : decoded.length + chunk.data.length ≤ usizeMax := by omega
    have hwithin : decoded.length + chunk.data.length ≤ maxBodySize := by omega
    have hturn := dechunkLoop_chunk chunk.one_line (hsize _ _ (by omega) chunk.size) chunk.data_ne
      (by omega) hmax hwithin (chunks.flatMap Chunk.encode ++ (last ++ crlf ++ trailing))
    have hrest := @ih (decoded ++ chunk.data)
    rw [List.append_assoc decoded] at hrest
    rw [hturn, hcarried]
    apply hrest
    · rw [List.length_append]
      omega
    · simp only [List.length_append]
      omega

/-- What has been decoded was encoded. -/
theorem encodes_of_dechunkLoop (h : dechunkLoop maxBodySize decoded input = .complete body) :
    ∃ (chunks : List (Chunk fun line n => chunkSize line = some n)) (last : List UInt8),
      Encodes chunks last input ∧ body = decoded ++ carried chunks := by
  fun_induction dechunkLoop maxBodySize decoded input with
  | case1 => cases h
  | case2 => cases h
  | case3 decoded rest lineEnd hline hsize =>
    obtain rfl := BodyProgress.complete.inj h
    obtain ⟨hsplit, hone, -⟩ := line_of_findSubslice hline
    refine ⟨[], rest.take lineEnd, ⟨hone, hsize, rest.drop (lineEnd + 2), ?_⟩, ?_⟩
    · rw [List.flatMap_nil, List.nil_append, List.append_assoc]
      exact hsplit
    · exact (List.append_nil _).symm
  | case4 => cases h
  | case5 => cases h
  | case6 => cases h
  | case7 => cases h
  | case8 decoded rest lineEnd hline size hzero hsize behind hover hlong hshort hend ih =>
    obtain ⟨chunks, last, ⟨hlast, hlastSize, trailing, hrest⟩, rfl⟩ := ih h
    obtain ⟨hsplit, hone, -⟩ := line_of_findSubslice hline
    rw [ne_eq, Decidable.not_not] at hend
    have hlength : (behind.take size).length = size := by
      rw [List.length_take]
      omega
    have hbehind : behind = behind.take size ++ (crlf ++ behind.drop (size + 2)) := by
      have htail : behind.drop size = crlf ++ behind.drop (size + 2) := by
        rw [← hend, List.drop_take, Nat.add_sub_cancel_left, ← List.drop_drop, List.take_append_drop]
      rw [← htail, List.take_append_drop]
    have hne : behind.take size ≠ [] := by
      intro hnil
      rw [hnil] at hlength
      exact hzero hlength.symm
    refine ⟨⟨rest.take lineEnd, behind.take size, hone, by rw [hlength]; exact hsize, hne⟩ :: chunks,
      last, ⟨hlast, hlastSize, trailing, ?_⟩, ?_⟩
    · refine hsplit.trans ?_
      show rest.take lineEnd ++ (crlf ++ behind) = _
      rw [List.flatMap_cons, List.append_assoc, ← hrest]
      simp only [Chunk.encode, List.append_assoc]
      rw [← hbehind]
    · rw [List.append_assoc]
      rfl

/-- The lines of an encoding are told from its bytes. -/
theorem lines_eq {kind : List UInt8 → Nat → Prop} {chunks : List (Chunk isSize)}
    {others : List (Chunk kind)} {otherLast : List UInt8}
    (hsize : ∀ line m n, isSize line m → kind line n → m = n)
    (h : Encodes chunks last input) (hother : Encodes others otherLast input) :
    last :: chunks.map (·.line) = otherLast :: others.map (·.line) := by
  obtain ⟨hlast, hzero, trailing, rfl⟩ := h
  obtain ⟨hotherLast, hotherZero, otherTrailing, hsame⟩ := hother
  -- two lines at the beginning of the same bytes
  have hfirst : ∀ {line line' rest rest' : List UInt8}, ¬ crlf <:+: line → ¬ crlf <:+: line' →
      line ++ (crlf ++ rest) = line' ++ (crlf ++ rest') → line = line' ∧ rest = rest' := by
    intro line line' rest rest' hline hline' heq
    have hindex := findSubslice_line hline rest
    rw [heq, findSubslice_line hline' rest'] at hindex
    obtain ⟨hlines, hrests⟩ := List.append_inj heq (Option.some.inj hindex).symm
    exact ⟨hlines, (List.append_inj hrests rfl).2⟩
  have hchunk : ∀ {k : List UInt8 → Nat → Prop} (chunk : Chunk k) (chunks : List (Chunk k))
      (tail : List UInt8), (chunk :: chunks).flatMap Chunk.encode ++ tail =
        chunk.line ++ (crlf ++ (chunk.data ++ (crlf ++ (chunks.flatMap Chunk.encode ++ tail)))) := by
    intro k chunk chunks tail
    simp only [List.flatMap_cons, Chunk.encode, List.append_assoc]
  induction chunks generalizing others with
  | nil =>
    rw [List.flatMap_nil, List.nil_append, List.append_assoc] at hsame
    cases others with
    | nil =>
      rw [List.flatMap_nil, List.nil_append, List.append_assoc] at hsame
      rw [(hfirst hlast hotherLast hsame).1]
      rfl
    | cons other others =>
      rw [hchunk] at hsame
      have hline := (hfirst hlast other.one_line hsame).1
      have hnone := hsize _ _ _ hzero (hline ▸ other.size)
      exact absurd (List.length_eq_zero_iff.mp hnone.symm) other.data_ne
  | cons chunk chunks ih =>
    rw [hchunk] at hsame
    cases others with
    | nil =>
      rw [List.flatMap_nil, List.nil_append, List.append_assoc otherLast] at hsame
      have hline := (hfirst chunk.one_line hotherLast hsame).1
      have hnone := hsize _ _ _ chunk.size (hline ▸ hotherZero)
      exact absurd (List.length_eq_zero_iff.mp hnone) chunk.data_ne
    | cons other others =>
      rw [hchunk] at hsame
      obtain ⟨hline, hbehind⟩ := hfirst chunk.one_line other.one_line hsame
      have hlength := hsize _ _ _ chunk.size (hline ▸ other.size)
      have hrest := (List.append_inj (List.append_inj hbehind hlength).2 rfl).2
      have htail := List.cons.inj (ih hrest)
      rw [List.map_cons, List.map_cons, hline, htail.1, htail.2]

/-! ### Sums and ranges -/

theorem byteRange_eq {bytes : List UInt8} {lo hi : Nat} (hle : lo ≤ hi) (hhi : hi ≤ bytes.length) :
    byteRange bytes lo hi = some ((bytes.take hi).drop lo) := if_pos ⟨hle, hhi⟩

/-- No sum the loop forms overflows and no range is out of bounds, and it ends within as many turns as there
are bytes. -/
theorem dechunkTurns_eq {turns : Nat} (hturns : input.length < turns) (hinput : input.length ≤ isizeMax) :
    dechunkTurns maxBodySize turns decoded input = some (dechunkLoop maxBodySize decoded input) := by
  induction turns generalizing decoded input with
  | zero => exact absurd hturns (Nat.not_lt_zero _)
  | succ turns ih =>
    rw [dechunkTurns, dechunkLoop]
    cases hline : findSubslice input crlf with
    | none => rfl
    | some lineEnd =>
      obtain ⟨-, -, hend⟩ := line_of_findSubslice hline
      have hfield : byteRange input 0 lineEnd = some (input.take lineEnd) :=
        byteRange_eq (Nat.zero_le _) (by omega)
      have hsum : addUsize lineEnd 2 = some (lineEnd + 2) := by
        have hbounds : isizeMax ≤ usizeMax := by decide
        exact if_neg (by omega)
      have hbehind : byteRange input (lineEnd + 2) input.length = some (input.drop (lineEnd + 2)) := by
        rw [byteRange_eq hend (Nat.le_refl _), List.take_length]
      simp only [hfield, hsum, hbehind, Option.bind_eq_bind, Option.bind_some]
      cases hsize : chunkSize (input.take lineEnd) with
      | none => rfl
      | some size =>
        cases size with
        | zero => rfl
        | succ n =>
          simp only [Nat.add_eq_zero_iff, Nat.one_ne_zero, and_false, if_false]
          generalize hrest : input.drop (lineEnd + 2) = behind
          generalize n + 1 = size
          by_cases hmax : usizeMax < decoded.length + size
          · have hover : addUsize decoded.length size = none := if_pos hmax
            simp only [hover, hmax, decide_true, Bool.true_or, if_true]
            rfl
          have htotal : addUsize decoded.length size = some (decoded.length + size) := if_neg hmax
          simp only [htotal, hmax, decide_false, Bool.false_or]
          split
          case isTrue => rfl
          case isFalse =>
            by_cases hlong : usizeMax < size + 2
            · have hover : addUsize size 2 = none := if_pos hlong
              simp only [hover, if_pos hlong]
              rfl
            have hsum' : addUsize size 2 = some (size + 2) := if_neg hlong
            simp only [hsum', if_neg hlong]
            by_cases hshort : behind.length < size + 2
            · simp only [if_pos hshort]
              rfl
            have hterminator : byteRange behind size (size + 2) =
                some ((behind.take (size + 2)).drop size) :=
              byteRange_eq (Nat.le_add_right _ _) (Nat.le_of_not_lt hshort)
            have hchunk : byteRange behind 0 size = some (behind.take size) :=
              byteRange_eq (Nat.zero_le _) (by omega)
            have hnext : byteRange behind (size + 2) behind.length = some (behind.drop (size + 2)) := by
              rw [byteRange_eq (Nat.le_of_not_lt hshort) (Nat.le_refl _), List.take_length]
            have hlength := congrArg List.length hrest
            rw [List.length_drop] at hlength
            have hturn := @ih (decoded ++ behind.take size) (behind.drop (size + 2))
              (by rw [List.length_drop]; omega) (by rw [List.length_drop]; omega)
            simp only [if_neg hshort, hterminator, hchunk, hnext, hturn, Option.bind_some]
            split
            case isTrue => rfl
            case isFalse => rfl

/-! ### The decoder and the grammar -/

/-- The lines the decoder reads: with a sign or without. -/
def ReadLine (line : List UInt8) (n : Nat) : Prop := SizeLine line n ∨ SignedLine line n

def Signed (line : List UInt8) : Prop := ∃ text, sizeText line = some ('+' :: text)

theorem chunkSize_of_readLine {n : Nat} (hmax : n ≤ usizeMax) (h : ReadLine line n) :
    chunkSize line = some n := chunkSize_eq_some_iff.mpr ⟨hmax, h⟩

theorem sizeLine_of_readLine {n : Nat} (h : ReadLine line n) (hsigned : ¬ Signed line) :
    SizeLine line n := by
  rcases h with h | ⟨text, htext, -⟩
  · exact h
  · exact absurd ⟨text, htext⟩ hsigned

theorem not_signed_of_sizeLine {n : Nat} (h : SizeLine line n) : ¬ Signed line := by
  rintro ⟨text, htext⟩
  obtain ⟨digits, hdigits, hhex⟩ := h
  obtain rfl : '+' :: text = digits := Option.some.inj (htext.symm.trans hdigits)
  exact absurd (hhex.digits '+' List.mem_cons_self) (by decide)

/-- The size a line says is one only. -/
theorem size_unique {m n : Nat} (h : SizeLine line m) (h' : ReadLine line n) : m = n := by
  have hline := sizeLine_of_readLine h' (not_signed_of_sizeLine h)
  obtain ⟨text, htext, hhex⟩ := h
  obtain ⟨text', htext', hhex'⟩ := hline
  obtain rfl := Option.some.inj (htext.symm.trans htext')
  exact hhex.value.symm.trans hhex'.value

/-- Chunks of one kind of which each line is of the other. -/
theorem exists_chunks (kind : List UInt8 → Nat → Prop) {chunks : List (Chunk isSize)}
    (hlines : ∀ chunk ∈ chunks, kind chunk.line chunk.data.length) :
    ∃ others : List (Chunk kind), others.flatMap Chunk.encode = chunks.flatMap Chunk.encode ∧
      carried others = carried chunks := by
  induction chunks with
  | nil => exact ⟨[], rfl, rfl⟩
  | cons chunk chunks ih =>
    obtain ⟨others, hencode, hcarried⟩ := ih fun c hc => hlines c (List.mem_cons_of_mem _ hc)
    refine ⟨⟨chunk.line, chunk.data, chunk.one_line, hlines chunk List.mem_cons_self, chunk.data_ne⟩ ::
      others, ?_, ?_⟩
    · rw [List.flatMap_cons, List.flatMap_cons, hencode]
      rfl
    · exact congrArg (chunk.data ++ ·) hcarried

/-- The decoder inverts every encoding, keeps to the cap, forms no sum or range that is out of bounds and
ends; and it accepts nothing but encodings exactly if none of the lines it reads to accept the input has a
sign. -/
theorem dechunk_exact (body : List UInt8) (maxBodySize : Nat) (hbody : body.length ≤ isizeMax) :
    (∀ (chunks : List (Chunk SizeLine)) (last : List UInt8), Encodes chunks last body →
      (carried chunks).length ≤ maxBodySize →
        dechunkProgress body maxBodySize = .complete (carried chunks)) ∧
    ((∀ decoded, dechunkProgress body maxBodySize = .complete decoded →
        ∃ (chunks : List (Chunk SizeLine)) (last : List UInt8),
          Encodes chunks last body ∧ decoded = carried chunks) ↔
      ∀ (chunks : List (Chunk ReadLine)) (last : List UInt8), Encodes chunks last body →
        (carried chunks).length ≤ maxBodySize →
          ∀ line ∈ last :: chunks.map (·.line), ¬ Signed line) ∧
    (∀ decoded, dechunkProgress body maxBodySize = .complete decoded →
      decoded.length ≤ maxBodySize) ∧
    ∀ turns, body.length < turns →
      dechunkTurns maxBodySize turns [] body = some (dechunkProgress body maxBodySize) := by
  have hbounds : isizeMax ≤ usizeMax := by decide
  have haccepts : ∀ {kind : List UInt8 → Nat → Prop} {chunks : List (Chunk kind)} {last : List UInt8},
      (∀ line n, kind line n → ReadLine line n) → Encodes chunks last body →
        (carried chunks).length ≤ maxBodySize →
          dechunkProgress body maxBodySize = .complete (carried chunks) := by
    intro kind chunks last hkind hencodes hcap
    exact dechunkLoop_encode (fun line n hmax hline => chunkSize_of_readLine hmax (hkind line n hline))
      hencodes (by rwa [List.length_nil, Nat.zero_add]) (by rwa [List.length_nil, Nat.zero_add])
  refine ⟨fun chunks last => haccepts fun line n => .inl, ⟨fun h chunks last hencodes hcap => ?_,
    fun h decoded hcomplete => ?_⟩, fun decoded hcomplete =>
      length_le_of_dechunkLoop hcomplete (Nat.zero_le _), fun turns hturns =>
        dechunkTurns_eq hturns hbody⟩
  · obtain ⟨others, otherLast, hothers, -⟩ := h _ (haccepts (fun line n hline => hline) hencodes hcap)
    have hsizes : ∀ line m n, SizeLine line m → ReadLine line n → m = n :=
      fun line m n => size_unique
    rw [← lines_eq hsizes hothers hencodes]
    intro line hline
    rcases List.mem_cons.mp hline with rfl | hline
    · exact not_signed_of_sizeLine hothers.2.1
    · obtain ⟨chunk, -, rfl⟩ := List.mem_map.mp hline
      exact not_signed_of_sizeLine chunk.size
  · have hcap := length_le_of_dechunkLoop hcomplete (Nat.zero_le _)
    obtain ⟨chunks, last, ⟨hlast, hzero, trailing, hinput⟩, rfl⟩ := encodes_of_dechunkLoop hcomplete
    obtain ⟨read, hread, hreadCarried⟩ := exists_chunks ReadLine
      fun chunk (_ : chunk ∈ chunks) => (chunkSize_eq_some_iff.mp chunk.size).2
    have hunsigned := h read last ⟨hlast, (chunkSize_eq_some_iff.mp hzero).2, trailing, hread ▸ hinput⟩
      (hreadCarried ▸ hcap)
    obtain ⟨others, hothers, hcarried⟩ := exists_chunks SizeLine
      fun chunk (hchunk : chunk ∈ read) => sizeLine_of_readLine chunk.size
        (hunsigned _ (List.mem_cons_of_mem _ (List.mem_map_of_mem hchunk)))
    refine ⟨others, last, ⟨hlast, ?_, trailing, ?_⟩, ?_⟩
    · exact sizeLine_of_readLine (chunkSize_eq_some_iff.mp hzero).2 (hunsigned last List.mem_cons_self)
    · rw [hothers, hread]
      exact hinput
    · rw [hcarried, hreadCarried]
      rfl

theorem isHex_one : IsHex ['1'] 1 :=
  ⟨List.cons_ne_nil _ _, List.all_iff_forall_prop.mp (by decide), by decide⟩

theorem isHex_zero : IsHex ['0'] 0 :=
  ⟨List.cons_ne_nil _ _, List.all_iff_forall_prop.mp (by decide), by decide⟩

theorem sizeLine_one : SizeLine [49] 1 := sizeLine_of_isHex isHex_one fun b hb => by cases hb

theorem sizeLine_zero : SizeLine [48] 0 := sizeLine_of_isHex isHex_zero fun b hb => by cases hb

theorem signedLine_one : SignedLine [43, 49] 1 := by
  have hfield : ([43, 49] : List UInt8).takeWhile (· ≠ 59) = encode ['+', '1'] := by decide
  have htrim : trim ['+', '1'] = ['+', '1'] := by decide
  refine ⟨['1'], ?_, isHex_one⟩
  rw [sizeText, hfield, fromUtf8_encode, Option.map_some, htrim]

/-- One chunk of one byte, with a byte behind the last line. -/
theorem dechunk_exact_letter :
    dechunkProgress [49, CR, LF, 120, CR, LF, 48, CR, LF, 33] 4 = .complete [120] :=
  (dechunk_exact [49, CR, LF, 120, CR, LF, 48, CR, LF, 33] 4 (by decide)).1
    [⟨[49], [120], by decide, sizeLine_one, by decide⟩] [48]
    ⟨by decide, sizeLine_zero, [33], by decide⟩ (by decide)

/-- A size with a sign is taken for the size. -/
theorem dechunk_signed :
    ¬ ∀ (body : List UInt8) (maxBodySize : Nat), body.length ≤ isizeMax → ∀ decoded,
      dechunkProgress body maxBodySize = .complete decoded →
        ∃ (chunks : List (Chunk SizeLine)) (last : List UInt8),
          Encodes chunks last body ∧ decoded = carried chunks := by
  intro h
  have hencodes : Encodes ([⟨[43, 49], [120], by decide, .inr signedLine_one, by decide⟩] : List (Chunk ReadLine)) [48]
      [43, 49, CR, LF, 120, CR, LF, 48, CR, LF] :=
    ⟨by decide, .inl sizeLine_zero, [], by decide⟩
  have hcomplete : dechunkProgress [43, 49, CR, LF, 120, CR, LF, 48, CR, LF] 4 = .complete [120] :=
    dechunkLoop_encode (fun line n hmax => chunkSize_of_readLine hmax) hencodes (by decide) (by decide)
  obtain ⟨chunks, last, hchunks, -⟩ := h _ 4 (by decide) _ hcomplete
  have hsizes : ∀ line m n, SizeLine line m → ReadLine line n → m = n := fun line m n => size_unique
  obtain ⟨-, hlines⟩ := List.cons.inj (lines_eq hsizes hchunks hencodes)
  obtain ⟨chunk, chunks, rfl⟩ := List.exists_cons_of_ne_nil (l := chunks) (by rintro rfl; cases hlines)
  have hline : chunk.line = [43, 49] := (List.cons.inj hlines).1
  have hsize := chunk.size
  rw [hline] at hsize
  obtain ⟨text, htext, -⟩ := signedLine_one
  exact not_signed_of_sizeLine hsize ⟨text, htext⟩

end Quilon.Http
