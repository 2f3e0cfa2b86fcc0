import Quilon.Corelib.Cli
import Quilon.Corelib.Equiv.Plain
import Quilon.Library.Positional

/-!
# Options are read positionally

`getOpt` tests each argument on its own (`getOpt_eq`).  That is reading the arguments from left to
right, where a name takes the argument behind it, exactly if each argument is an option where it is
taken for one, and none that is stands behind a name (`getOpt_positional_iff`).
-/

namespace Quilon.Cli

open Text Utf8

variable (unicode : Unicode)

/-! ### Reading from left to right -/

/-- The content of the name with its dashes. -/
def dashed (name : QnSlice) : List UInt8 :=
  if (graphemesOf unicode (textStr name)).take 2 = [['-'], ['-']] then name.content
  else encode ['-', '-'] ++ name.content

/-- An argument that is the name, with or without its dashes. -/
def isName (name : QnSlice) (content : List UInt8) : Bool :=
  content = name.content || content = dashed unicode name

/-- The text behind the name and a grapheme `=`, where the argument begins with these. -/
def givenBehind (name : QnSlice) (before : List Char) : List (List Char) → Option (List UInt8)
  | [] => none
  | grapheme :: rest =>
    if grapheme = ['='] ∧ isName unicode name (encode before) then some (encode rest.flatten)
    else givenBehind name (before ++ grapheme) rest

/-- The value of an argument `name=value`. -/
def given (name tok : QnSlice) : Option (List UInt8) :=
  givenBehind unicode name [] (graphemesOf unicode (textStr tok))

def takesNext (name tok : QnSlice) : Bool := isName unicode name tok.content

/-- The values of the option, read from left to right. -/
def optionValues (name : QnSlice) (tokens : List QnSlice) : List (List UInt8) :=
  positional (takesNext unicode name) QnSlice.content (given unicode name) tokens

/-- `getOpt` gives the values behind the first argument, or its name where there are none. -/
def ReadsPositionally (args : List QnSlice) (name : QnSlice) : Prop :=
  match optionValues unicode name args.tail with
  | [] => getOpt unicode args name = some (.error name)
  | values => ∃ vals, getOpt unicode args name = some (.ok vals) ∧ vals.map (·.content) = values

/-! ### What an argument yields on its own -/

/-- How many graphemes stand before the first `=`. -/
def keyLength (text : List Char) : Nat :=
  (graphemesOf unicode (text.take (text.idxOf '='))).length

def keyContent (tok : QnSlice) : List UInt8 :=
  if '=' ∈ textStr tok then
    encode ((graphemesOf unicode (textStr tok)).take (keyLength unicode (textStr tok))).flatten
  else tok.content

def valueContent (tok : QnSlice) : List UInt8 :=
  encode ((graphemesOf unicode (textStr tok)).drop (keyLength unicode (textStr tok) + 1)).flatten

def yields (name tok : QnSlice) (next : Option QnSlice) : Option (List UInt8) :=
  if isName unicode name (keyContent unicode tok) then
    if '=' ∈ textStr tok then some (valueContent unicode tok) else next.map QnSlice.content
  else none

variable {unicode} {name tok wanted' : QnSlice} {args tokens : List QnSlice}

theorem equalsSign : "=".toList = ['='] := rfl

theorem indexOf_equals (h : WellFormed unicode tok) :
    tok.indexOf unicode (literal unicode "=") =
      some (if '=' ∈ textStr tok then some (keyLength unicode (textStr tok) : Int) else none) := by
  rw [QnSlice.indexOf_eq h, textStr_literal, equalsSign, strFind, if_neg (List.cons_ne_nil _ _),
    firstIndexOf_singleton]
  by_cases hmem : '=' ∈ textStr tok
  · rw [if_pos hmem, if_pos hmem]
    rfl
  · rw [if_neg hmem, if_neg hmem]
    rfl

theorem contains_equals (h : WellFormed unicode tok) :
    tok.contains unicode (literal unicode "=") = some (decide ('=' ∈ textStr tok)) := by
  unfold QnSlice.contains
  rw [indexOf_equals h]
  by_cases hmem : '=' ∈ textStr tok
  · rw [if_pos hmem, decide_eq_true hmem]
    rfl
  · rw [if_neg hmem, decide_eq_false hmem]
    rfl

theorem length_clusters_le (tok : QnSlice) :
    (graphemesOf unicode (textStr tok)).length ≤ tok.content.length := by
  rw [textStr_eq]
  exact (length_graphemes_le _).trans (length_lossy_le _)

theorem optKey_eq (h : WellFormed unicode tok) :
    ∃ key, optKey unicode tok = some key ∧ key.content = keyContent unicode tok := by
  unfold optKey keyContent
  rw [indexOf_equals h]
  by_cases hmem : '=' ∈ textStr tok
  · rw [if_pos hmem, if_pos hmem]
    refine ⟨_, QnSlice.slice_eq _ _ _ _, ?_⟩
    have hzero : clamp 0 (graphemesOf unicode (textStr tok)).length = 0 := by
      unfold clamp
      omega
    have hclamp : clamp (keyLength unicode (textStr tok))
        (graphemesOf unicode (textStr tok)).length =
          min (keyLength unicode (textStr tok)) (graphemesOf unicode (textStr tok)).length := by
      unfold clamp
      omega
    rw [content_textSlice h, hzero, hclamp, List.drop_zero, ← List.take_eq_take_min]
  · rw [if_neg hmem, if_neg hmem]
    exact ⟨tok, rfl, rfl⟩

theorem optVal_eq (h : WellFormed unicode tok) (hmem : '=' ∈ textStr tok) :
    ∃ value, optVal unicode tok = some value ∧ value.content = valueContent unicode tok := by
  unfold optVal valueContent
  rw [indexOf_equals h, if_pos hmem]
  refine ⟨_, QnSlice.slice_eq _ _ _ _, ?_⟩
  have hsize := @length_clusters_le unicode tok
  have hclamp : clamp tok.size (graphemesOf unicode (textStr tok)).length =
      (graphemesOf unicode (textStr tok)).length := by
    unfold clamp QnSlice.size
    omega
  rw [content_textSlice h, hclamp, List.take_length]
  congr 2
  rcases Nat.lt_or_ge (keyLength unicode (textStr tok) + 1)
    (graphemesOf unicode (textStr tok)).length with hlt | hge
  · congr 1
    unfold clamp
    omega
  · rw [List.drop_eq_nil_of_le hge]
    apply List.drop_eq_nil_of_le
    unfold clamp
    omega

theorem namesOption_eq (h : WellFormed unicode tok)
    (hwanted : wanted'.content = dashed unicode name) :
    namesOption unicode name wanted' tok =
      some (isName unicode name (keyContent unicode tok)) := by
  obtain ⟨key, hkey, hcontent⟩ := optKey_eq h
  unfold namesOption
  rw [hkey]
  show some (key.equals name || key.equals wanted') = _
  unfold QnSlice.equals isName
  rw [hcontent, hwanted, beq_eq_decide, beq_eq_decide]

/-- The dashes are those of the name, or put before it. -/
theorem wanted_eq (h : WellFormed unicode name) :
    ∃ key, wanted unicode name = some key ∧ key.content = dashed unicode name := by
  have hslice := QnSlice.slice_eq unicode name 0 2
  have hzero : clamp 0 (graphemesOf unicode (textStr name)).length = 0 := by
    unfold clamp
    omega
  have htwo : clamp 2 (graphemesOf unicode (textStr name)).length =
      min 2 (graphemesOf unicode (textStr name)).length := by
    unfold clamp
    omega
  have hcontent := content_textSlice h 0 2
  rw [hzero, htwo, List.drop_zero, ← List.take_eq_take_min] at hcontent
  have hdashes : (textSlice unicode name 0 2).equals (literal unicode "--") =
      decide ((graphemesOf unicode (textStr name)).take 2 = [['-'], ['-']]) := by
    unfold QnSlice.equals
    rw [hcontent, content_literal, Bool.eq_iff_iff, beq_iff_eq, decide_eq_true_iff]
    refine ⟨fun heq => ?_, fun heq => by rw [heq]; rfl⟩
    have hdecoded := congrArg lossy heq
    rw [lossy_encode, lossy_encode] at hdecoded
    have htake := graphemes_flatten_take unicode.classOf (textStr name) 2
    have hdash := (holds_literal unicode (show ∀ c ∈ "--".toList, IsPlain c from
      List.all_iff_forall_prop.mp (by decide))).clusters
    unfold graphemesOf at hdecoded hdash
    rw [hdecoded, hdash] at htake
    exact htake.symm
  unfold wanted dashed
  rw [hslice]
  simp only [Option.bind_eq_bind, Option.bind_some]
  rw [hdashes]
  by_cases hcase : (graphemesOf unicode (textStr name)).take 2 = [['-'], ['-']]
  · rw [if_pos (decide_eq_true hcase), if_pos hcase]
    exact ⟨name, rfl, rfl⟩
  · rw [if_neg (by simp [hcase]), if_neg hcase]
    exact ⟨_, rfl, content_textConcat unicode _ _⟩

/-! ### The run over the indices -/

theorem element_eq (args : List QnSlice) (k : Nat) : element args k = args[k]? := by
  unfold element
  rw [if_neg (by omega), Int.toNat_natCast]

/-- One index adds what its argument yields. -/
theorem collect_eq (hargs : ∀ arg ∈ args, WellFormed unicode arg)
    (hwanted : wanted'.content = dashed unicode name) (acc : List QnSlice) {k : Nat}
    {rest : List QnSlice} (hdrop : args.drop k = tok :: rest) :
    ∃ more, collect unicode args name wanted' acc k = some (acc ++ more) ∧
      more.map (·.content) = (yields unicode name tok rest.head?).toList := by
  have helement : args[k]? = some tok := by
    rw [← List.head?_drop, hdrop]
    rfl
  have hnext : args[k + 1]? = rest.head? := by
    rw [← List.head?_drop, ← List.tail_drop, hdrop]
    rfl
  have htok : WellFormed unicode tok := hargs tok (List.mem_of_getElem? helement)
  unfold collect yields
  rw [element_eq, helement]
  simp only [Option.bind_eq_bind, Option.bind_some]
  rw [namesOption_eq htok hwanted, contains_equals htok]
  simp only [Option.bind_some]
  cases isName unicode name (keyContent unicode tok) with
  | false => exact ⟨[], by simp, rfl⟩
  | true =>
    by_cases hmem : '=' ∈ textStr tok
    · obtain ⟨value, hvalue, hcontent⟩ := optVal_eq htok hmem
      rw [if_pos rfl, if_pos (decide_eq_true hmem), hvalue, if_pos rfl, if_pos hmem]
      exact ⟨[value], rfl, by rw [← hcontent]; rfl⟩
    · rw [if_pos rfl, if_neg (by simp [hmem]), if_pos rfl, if_neg hmem]
      have helement' : element args ((k : Int) + 1) = rest.head? := by
        rw [show ((k : Int) + 1) = ((k + 1 : Nat) : Int) by omega, element_eq, hnext]
      rw [helement']
      cases hrest : rest.head? with
      | none =>
        have hlast : ¬ (k : Int) + 1 < args.length := by
          have hle := List.getElem?_eq_none_iff.mp (hnext.trans hrest)
          omega
        rw [if_neg hlast]
        exact ⟨[], by simp, rfl⟩
      | some next =>
        have hlt : (k : Int) + 1 < args.length := by
          have hlt := (List.getElem?_eq_some_iff.mp (hnext.trans hrest)).1
          omega
        rw [if_pos hlt]
        exact ⟨[next], rfl, rfl⟩

/-- The indices that are gone through. -/
theorem indices_eq (n : Nat) :
    (range 0 ((n : Int) - 1)).filter (fun i => 0 < i) =
      (List.range' 1 (n - 1)).map fun (i : Nat) => (i : Int) := by
  unfold range
  cases n with
  | zero => rfl
  | succ n =>
    have hcount : (((n + 1 : Nat) : Int) - 1 - 0 + 1).toNat = n + 1 := by omega
    have hall : ((List.range' 1 n).map fun (i : Nat) => (i : Int)).filter (fun i => 0 < i) =
        (List.range' 1 n).map fun (i : Nat) => (i : Int) := by
      rw [List.filter_eq_self]
      intro i hi
      obtain ⟨k, hk, rfl⟩ := List.mem_map.mp hi
      have hle := (List.mem_range'_1.mp hk).1
      simp only [decide_eq_true_eq]
      omega
    rw [if_pos (by omega), hcount, List.range_eq_range', List.range'_succ, List.map_cons,
      List.filter_cons_of_neg (by simp)]
    simp only [Int.zero_add, Nat.zero_add]
    exact hall

/-- From an index on, the rest of the arguments is read, each on its own. -/
theorem foldlM_collect (hargs : ∀ arg ∈ args, WellFormed unicode arg)
    (hwanted : wanted'.content = dashed unicode name) (n k : Nat) (hk : k + n = args.length)
    (acc : List QnSlice) :
    ∃ more, ((List.range' k n).map fun (i : Nat) => (i : Int)).foldlM
        (collect unicode args name wanted') acc = some (acc ++ more) ∧
      more.map (·.content) = independent (yields unicode name) (args.drop k) := by
  induction n generalizing k acc with
  | zero =>
    rw [List.drop_eq_nil_of_le (by omega)]
    exact ⟨[], by simp [List.range'], rfl⟩
  | succ n ih =>
    obtain ⟨tok, rest, hdrop⟩ : ∃ tok rest, args.drop k = tok :: rest := by
      cases hdrop : args.drop k with
      | nil =>
        have hle := List.drop_eq_nil_iff.mp hdrop
        omega
      | cons tok rest => exact ⟨tok, rest, rfl⟩
    have hrest : args.drop (k + 1) = rest := by
      rw [← List.tail_drop, hdrop]
      rfl
    obtain ⟨first, hfirst, hcontent⟩ := collect_eq hargs hwanted acc hdrop
    obtain ⟨more, hmore, hcontents⟩ := ih (k + 1) (by omega) (acc ++ first)
    refine ⟨first ++ more, ?_, ?_⟩
    · rw [List.range'_succ, List.map_cons, List.foldlM_cons, hfirst]
      show List.foldlM _ (acc ++ first) _ = _
      rw [hmore, List.append_assoc]
    · rw [List.map_append, hcontent, hcontents, hdrop, hrest]
      rfl

/-- **`getOpt` reads each argument on its own.** -/
theorem getOpt_eq (hargs : ∀ arg ∈ args, WellFormed unicode arg) (hname : WellFormed unicode name) :
    ∃ vals : List QnSlice,
      vals.map (·.content) = independent (yields unicode name) args.tail ∧
        getOpt unicode args name = some (if 0 < vals.length then .ok vals else .error name) := by
  obtain ⟨wanted', hwanted, hcontent⟩ := wanted_eq hname
  have hempty : args.filter (fun _ => false) = [] := List.filter_false args
  obtain ⟨vals, hvals, hcontents⟩ : ∃ vals,
      ((List.range' 1 (args.length - 1)).map fun (i : Nat) => (i : Int)).foldlM
        (collect unicode args name wanted') [] = some vals ∧
      vals.map (·.content) = independent (yields unicode name) args.tail := by
    cases args with
    | nil => exact ⟨[], rfl, rfl⟩
    | cons first rest =>
      obtain ⟨more, hmore, hcontents⟩ := foldlM_collect hargs hcontent rest.length 1
        (by rw [List.length_cons]; omega) []
      exact ⟨more, hmore, hcontents⟩
  refine ⟨vals, hcontents, ?_⟩
  unfold getOpt
  rw [hwanted]
  simp only [Option.bind_eq_bind, Option.bind_some]
  rw [indices_eq, hempty, hvals]
  rfl

/-! ### Names and where their `=` stands -/

section Names

variable {content content' : List UInt8} {before : List Char} {clusters a b : List (List Char)}

theorem lossy_dashes (content : List UInt8) :
    lossy (encode ['-', '-'] ++ content) = '-' :: '-' :: lossy content :=
  lossy_encode_append

/-- A name with dashes put before it has its `=` elsewhere. -/
theorem isName_unique (h : isName unicode name content) (h' : isName unicode name content')
    (hindex : (lossy content).idxOf '=' = (lossy content').idxOf '=') : content = content' := by
  have hdashes : (lossy (encode ['-', '-'] ++ name.content)).idxOf '=' =
      (lossy name.content).idxOf '=' + 2 := by
    rw [lossy_dashes, List.idxOf_cons_ne _ (by decide), List.idxOf_cons_ne _ (by decide)]
  unfold isName dashed at h h'
  rw [Bool.or_eq_true, decide_eq_true_eq, decide_eq_true_eq] at h h'
  split at h
  case isTrue hcase =>
    rw [if_pos hcase] at h'
    rw [or_self] at h h'
    rw [h, h']
  case isFalse hcase =>
    rw [if_neg hcase] at h'
    rcases h with rfl | rfl <;> rcases h' with rfl | rfl
    · rfl
    · omega
    · omega
    · rfl

/-- What holds of a name and of it with dashes before it holds of all the forms. -/
theorem isName_forall {p : List UInt8 → Prop}
    (hdashes : p name.content ↔ p (encode ['-', '-'] ++ name.content))
    (h : isName unicode name content) (h' : isName unicode name content') (hp : p content) :
    p content' := by
  unfold isName dashed at h h'
  rw [Bool.or_eq_true, decide_eq_true_eq, decide_eq_true_eq] at h h'
  split at h
  case isTrue hcase =>
    rw [if_pos hcase] at h'
    rw [or_self] at h h'
    rwa [h', ← h]
  case isFalse hcase =>
    rw [if_neg hcase] at h'
    rcases h with rfl | rfl <;> rcases h' with rfl | rfl
    · exact hp
    · exact hdashes.mp hp
    · exact hdashes.mpr hp
    · exact hp

theorem equals_mem_iff (h : isName unicode name content) (h' : isName unicode name content') :
    '=' ∈ lossy content ↔ '=' ∈ lossy content' := by
  have hdashes : '=' ∈ lossy name.content ↔ '=' ∈ lossy (encode ['-', '-'] ++ name.content) := by
    rw [lossy_dashes]
    simp
  exact ⟨isName_forall (p := fun content => '=' ∈ lossy content) hdashes h h',
    isName_forall (p := fun content => '=' ∈ lossy content) hdashes h' h⟩

theorem valid_of_isName (h : isName unicode name content) (h' : isName unicode name content')
    (hvalid : encode (lossy content) = content) : encode (lossy content') = content' := by
  have hdashes : encode (lossy name.content) = name.content ↔
      encode (lossy (encode ['-', '-'] ++ name.content)) = encode ['-', '-'] ++ name.content := by
    rw [lossy_dashes]
    show _ ↔ encode (['-', '-'] ++ lossy name.content) = _
    rw [encode_append, List.append_cancel_left_eq]
  exact isName_forall (p := fun content => encode (lossy content) = content) hdashes h h' hvalid

/-! ### The value behind a name -/

theorem givenBehind_eq_some {value : List UInt8}
    (h : givenBehind unicode name before clusters = some value) :
    ∃ a b, clusters = a ++ ['='] :: b ∧ isName unicode name (encode (before ++ a.flatten)) ∧
      value = encode b.flatten := by
  induction clusters generalizing before with
  | nil => cases h
  | cons grapheme rest ih =>
    unfold givenBehind at h
    split at h
    case isTrue hhere =>
      refine ⟨[], rest, by rw [hhere.1]; rfl, ?_, (Option.some.inj h).symm⟩
      rw [List.flatten_nil, List.append_nil]
      exact hhere.2
    case isFalse =>
      obtain ⟨a, b, hrest, hname, hvalue⟩ := ih h
      refine ⟨grapheme :: a, b, by rw [hrest]; rfl, ?_, hvalue⟩
      rwa [List.flatten_cons, ← List.append_assoc]

theorem isSome_givenBehind
    (hname : isName unicode name (encode (before ++ a.flatten))) :
    (givenBehind unicode name before (a ++ ['='] :: b)).isSome := by
  induction a generalizing before with
  | nil =>
    rw [List.flatten_nil, List.append_nil] at hname
    rw [List.nil_append, givenBehind, if_pos ⟨rfl, hname⟩]
    rfl
  | cons grapheme a ih =>
    rw [List.cons_append, givenBehind]
    split
    · rfl
    · apply ih
      rwa [List.append_assoc, ← List.flatten_cons]

/-- A value is given behind the graphemes of the name and an `=`. -/
theorem given_eq_some {value : List UInt8} (h : given unicode name tok = some value) :
    ∃ a b, graphemesOf unicode (textStr tok) = a ++ ['='] :: b ∧
      isName unicode name (encode a.flatten) ∧ value = encode b.flatten := by
  obtain ⟨a, b, hclusters, hname, hvalue⟩ := givenBehind_eq_some h
  rw [List.nil_append] at hname
  exact ⟨a, b, hclusters, hname, hvalue⟩

theorem isSome_given (hclusters : graphemesOf unicode (textStr tok) = a ++ ['='] :: b)
    (hname : isName unicode name (encode a.flatten)) : (given unicode name tok).isSome := by
  unfold given
  rw [hclusters]
  exact isSome_givenBehind (by rwa [List.nil_append])

end Names

/-! ### Where an argument is cut -/

section Cuts

variable {text : List Char} {a b : List (List Char)} {k : Nat}

theorem take_idxOf_append {front back : List Char} (h : '=' ∉ front) :
    (front ++ '=' :: back).take ((front ++ '=' :: back).idxOf '=') = front := by
  rw [List.idxOf_append_of_notMem h, List.idxOf_cons_self, Nat.add_zero, List.take_left]

theorem idxOf_append_of_key {front back : List Char} (h : '=' ∈ front) :
    (front ++ back).idxOf '=' = front.idxOf '=' ∧
      (front ++ back).take (front.idxOf '=') = front.take (front.idxOf '=') := by
  refine ⟨List.idxOf_append_of_mem h, ?_⟩
  rw [List.take_append_of_le_length (Nat.le_of_lt (List.idxOf_lt_length_iff.mpr h))]

theorem keyLength_le (text : List Char) :
    keyLength unicode text ≤ (graphemesOf unicode text).length := by
  have hmono := countOf_mono unicode (text.take (text.idxOf '=')) (text.drop (text.idxOf '='))
  rw [List.take_append_drop] at hmono
  unfold countOf at hmono
  unfold keyLength
  omega

/-- The graphemes that are cut off are those of what they spell. -/
theorem length_take_keyLength (text : List Char) :
    (graphemesOf unicode
      ((graphemesOf unicode text).take (keyLength unicode text)).flatten).length =
        keyLength unicode text := by
  unfold graphemesOf
  rw [graphemes_flatten_take, List.length_take]
  exact Nat.min_eq_left (keyLength_le text)

theorem flatten_take_append (text : List Char) (k : Nat) :
    ((graphemesOf unicode text).take k).flatten ++ ((graphemesOf unicode text).drop k).flatten =
      text := by
  rw [← List.flatten_append, List.take_append_drop]
  exact flatten_graphemes _ _

/-- What is cut off has its first `=` where the text has it, or ends there. -/
theorem idxOf_key (hmem : '=' ∈ text) :
    ((graphemesOf unicode text).take (keyLength unicode text)).flatten.idxOf '=' =
      text.idxOf '=' := by
  have htext := @flatten_take_append unicode text (keyLength unicode text)
  have hlength := @length_take_keyLength unicode text
  have hcut : IsCut unicode.classOf text
      ((graphemesOf unicode text).take (keyLength unicode text)).flatten.length :=
    ⟨keyLength unicode text, rfl⟩
  generalize ((graphemesOf unicode text).take (keyLength unicode text)).flatten = key at *
  generalize ((graphemesOf unicode text).drop (keyLength unicode text)).flatten = rest at *
  by_cases hkey : '=' ∈ key
  · rw [← htext, (idxOf_append_of_key hkey).1]
  · -- up to the first `=` there would be another grapheme
    rw [List.idxOf_eq_length hkey, ← htext, List.idxOf_append_of_notMem hkey]
    have hrest : '=' ∈ rest := by
      rw [← htext, List.mem_append] at hmem
      exact hmem.resolve_left hkey
    obtain ⟨between, behind, rfl, hbetween⟩ := List.eq_append_cons_of_mem hrest
    rw [List.idxOf_append_of_notMem hbetween, List.idxOf_cons_self, Nat.add_zero]
    cases hempty : between with
    | nil => rfl
    | cons c between' =>
      exfalso
      rw [← htext, isCut_append_iff] at hcut
      have hne : between ≠ [] := by
        rw [hempty]
        exact List.cons_ne_nil _ _
      have hclusters := ((apart_append hne).mp hcut).graphemes
      have hbefore : text.take (text.idxOf '=') = key ++ between := by
        have hnot : '=' ∉ key ++ between := by
          rw [List.mem_append]
          exact not_or.mpr ⟨hkey, hbetween⟩
        rw [← htext, ← List.append_assoc]
        exact take_idxOf_append hnot
      have hcount : keyLength unicode text =
          (graphemesOf unicode key).length + (graphemesOf unicode between).length := by
        unfold keyLength
        rw [hbefore]
        unfold graphemesOf
        rw [hclusters, List.length_append]
      have hpos := List.length_pos_iff.mpr (@graphemes_ne_nil _ unicode.classOf _ hne)
      unfold graphemesOf at hlength hcount
      omega

/-- The first graphemes are told by what they spell. -/
theorem length_of_flatten_take (hclusters : graphemesOf unicode text = a ++ ['='] :: b)
    (hspell : ((graphemesOf unicode text).take k).flatten = a.flatten) : k = a.length := by
  have hk := graphemes_flatten_take unicode.classOf text k
  have ha := graphemes_flatten_take unicode.classOf text a.length
  unfold graphemesOf at hclusters hspell
  have htake : (graphemes unicode.classOf text).take a.length = a := by
    rw [hclusters, List.take_left]
  rw [htake] at ha
  rw [hspell, ha] at hk
  have hlengths := congrArg List.length hk
  rw [List.length_take, hclusters, List.length_append, List.length_cons] at hlengths
  omega

theorem graphemes_front (hclusters : graphemesOf unicode text = a ++ ['='] :: b) :
    graphemesOf unicode a.flatten = a := by
  have ha := graphemes_flatten_take unicode.classOf text a.length
  unfold graphemesOf at hclusters ⊢
  rw [hclusters, List.take_left] at ha
  exact ha

theorem text_of_clusters (hclusters : graphemesOf unicode text = a ++ ['='] :: b) :
    text = a.flatten ++ '=' :: b.flatten := by
  have hflatten := flatten_graphemes unicode.classOf text
  unfold graphemesOf at hclusters
  rw [hclusters, List.flatten_append, List.flatten_cons] at hflatten
  exact hflatten.symm

/-- The `=` behind a name is the first one that does not belong to it. -/
theorem idxOf_front (hclusters : graphemesOf unicode text = a ++ ['='] :: b) :
    a.flatten.idxOf '=' = text.idxOf '=' := by
  rw [text_of_clusters hclusters]
  by_cases hmem : '=' ∈ a.flatten
  · rw [(idxOf_append_of_key hmem).1]
  · rw [List.idxOf_append_of_notMem hmem, List.idxOf_cons_self, List.idxOf_eq_length hmem,
      Nat.add_zero]

end Cuts

/-! ### An argument and its name -/

section Arguments

variable {text : List Char} {a b : List (List Char)} {value : List UInt8}

theorem keyContent_of_mem (hmem : '=' ∈ textStr tok) :
    keyContent unicode tok =
      encode ((graphemesOf unicode (textStr tok)).take
        (keyLength unicode (textStr tok))).flatten := if_pos hmem

theorem keyContent_of_notMem (hmem : '=' ∉ textStr tok) :
    keyContent unicode tok = tok.content := if_neg hmem

/-- The key of an argument has its first `=` where the argument has it. -/
theorem idxOf_keyContent (unicode : Unicode) (tok : QnSlice) :
    (lossy (keyContent unicode tok)).idxOf '=' = (textStr tok).idxOf '=' := by
  by_cases hmem : '=' ∈ textStr tok
  · rw [keyContent_of_mem hmem, lossy_encode, idxOf_key hmem]
  · rw [keyContent_of_notMem hmem, textStr_eq]

/-- An argument that is a name has no value of its own. -/
theorem given_of_takesNext (h : takesNext unicode name tok = true) :
    given unicode name tok = none := by
  cases hgiven : given unicode name tok with
  | none => rfl
  | some value =>
    obtain ⟨a, b, hclusters, hname, -⟩ := given_eq_some hgiven
    have hindex : (lossy (encode a.flatten)).idxOf '=' = (lossy tok.content).idxOf '=' := by
      rw [lossy_encode, idxOf_front hclusters, textStr_eq]
    have heq := isName_unique hname h hindex
    have htext := text_of_clusters hclusters
    rw [textStr_eq, ← heq, lossy_encode] at htext
    have hlength := congrArg List.length htext
    rw [List.length_append, List.length_cons] at hlength
    omega

/-- Where the key is the name, the value is what stands behind it. -/
theorem given_eq_value (hmatch : isName unicode name (keyContent unicode tok))
    (hgiven : given unicode name tok = some value) :
    '=' ∈ textStr tok ∧ value = valueContent unicode tok := by
  obtain ⟨a, b, hclusters, hname, hvalue⟩ := given_eq_some hgiven
  have hmem : '=' ∈ textStr tok := by
    rw [text_of_clusters hclusters]
    exact List.mem_append_right _ List.mem_cons_self
  have hindex : (lossy (keyContent unicode tok)).idxOf '=' =
      (lossy (encode a.flatten)).idxOf '=' := by
    rw [idxOf_keyContent, lossy_encode, idxOf_front hclusters]
  have hspell := congrArg lossy (isName_unique hmatch hname hindex)
  rw [keyContent_of_mem hmem, lossy_encode, lossy_encode] at hspell
  have hlength := length_of_flatten_take hclusters hspell
  refine ⟨hmem, ?_⟩
  unfold valueContent
  rw [hvalue, hlength, hclusters, ← List.drop_drop, List.drop_left]
  rfl

/-- A name with an `=` in it that is found leaves no value. -/
theorem valueContent_of_takesNext (hmatch : isName unicode name (keyContent unicode tok))
    (htakes : takesNext unicode name tok = true) (hmem : '=' ∈ textStr tok) :
    valueContent unicode tok = [] := by
  have hindex : (lossy (keyContent unicode tok)).idxOf '=' = (lossy tok.content).idxOf '=' := by
    rw [idxOf_keyContent, textStr_eq]
  have hspell := congrArg lossy (isName_unique hmatch htakes hindex)
  rw [keyContent_of_mem hmem, lossy_encode, ← textStr_eq] at hspell
  have hrest := @flatten_take_append unicode (textStr tok) (keyLength unicode (textStr tok))
  rw [hspell, List.append_right_eq_self] at hrest
  have hdrop := graphemes_flatten_drop unicode.classOf (textStr tok)
    (keyLength unicode (textStr tok))
  unfold graphemesOf at hrest
  rw [hrest] at hdrop
  unfold valueContent graphemesOf
  rw [← List.drop_drop, ← hdrop]
  rfl

/-! ### Names with an `=` -/

/-- The first `=` of the text belongs to its last grapheme, behind what that begins with. -/
def Joined (unicode : Unicode) (text : List Char) : Prop :=
  '=' ∈ text ∧ (graphemesOf unicode text).length = keyLength unicode text

theorem joined_of_match (hmem : '=' ∈ lossy (keyContent unicode tok)) :
    Joined unicode (lossy (keyContent unicode tok)) ∧
      encode (lossy (keyContent unicode tok)) = keyContent unicode tok := by
  have htok : '=' ∈ textStr tok := by
    by_contra hnot
    rw [keyContent_of_notMem hnot, ← textStr_eq] at hmem
    exact hnot hmem
  have hlength := @length_take_keyLength unicode (textStr tok)
  have htext := @flatten_take_append unicode (textStr tok) (keyLength unicode (textStr tok))
  rw [keyContent_of_mem htok, lossy_encode] at hmem ⊢
  refine ⟨⟨hmem, hlength.trans ?_⟩, rfl⟩
  generalize ((graphemesOf unicode (textStr tok)).take _).flatten = key at *
  generalize ((graphemesOf unicode (textStr tok)).drop _).flatten = rest at htext
  have hprefix := @idxOf_append_of_key key rest hmem
  unfold keyLength
  rw [← htext, hprefix.1, hprefix.2]

theorem match_of_takesNext (htakes : takesNext unicode name tok = true)
    (hjoined : Joined unicode (lossy tok.content))
    (hvalid : encode (lossy tok.content) = tok.content) :
    isName unicode name (keyContent unicode tok) := by
  obtain ⟨hmem, hlength⟩ := hjoined
  rw [← textStr_eq] at hmem hlength
  rw [keyContent_of_mem hmem, ← hlength, List.take_length]
  unfold graphemesOf
  rw [flatten_graphemes, textStr_eq, hvalid]
  exact htakes

theorem match_of_given (hclusters : graphemesOf unicode (textStr tok) = a ++ ['='] :: b)
    (hname : isName unicode name (encode a.flatten))
    (hjoined : '=' ∈ a.flatten → Joined unicode a.flatten) :
    isName unicode name (keyContent unicode tok) := by
  have htext := text_of_clusters hclusters
  have hmem : '=' ∈ textStr tok := by
    rw [htext]
    exact List.mem_append_right _ List.mem_cons_self
  have hfront := graphemes_front hclusters
  have hlength : keyLength unicode (textStr tok) = a.length := by
    by_cases hinside : '=' ∈ a.flatten
    · have hkey := (hjoined hinside).2
      rw [hfront] at hkey
      have hprefix := @idxOf_append_of_key a.flatten ('=' :: b.flatten) hinside
      unfold keyLength at hkey ⊢
      rw [htext, hprefix.1, hprefix.2]
      exact hkey.symm
    · unfold keyLength
      rw [htext, take_idxOf_append hinside, hfront]
  rw [keyContent_of_mem hmem, hlength, hclusters, List.take_left]
  exact hname

theorem joins_other (before : List GraphemeClass) :
    joins before .other = true ↔ before.head? = some .prepend := by
  cases before with
  | nil => simp [joins]
  | cons last before =>
    cases last <;> simp [joins, GraphemeClass.isControl, GraphemeClass.isExtender,
      GraphemeClass.hangulJoins]

/-- A sign that is no mark belongs to what stands before it only behind a prepended one, and then
what follows does not see that. -/
theorem startsFrom_equals (hequals : unicode.classOf '=' = .other) (before : List GraphemeClass)
    (behind : List Char) :
    startsFrom unicode.classOf before ('=' :: behind) = 0 ↔
      before.head? = some .prepend ∧ startsFrom unicode.classOf [.other] behind = 0 := by
  have hcontext : context (GraphemeClass.other :: before) = context [GraphemeClass.other] :=
    context_cons_of_not_isExtender rfl fun h => by cases h
  rw [startsFrom, hequals, startsFrom_congr hcontext, ← joins_other, Nat.add_eq_zero_iff]
  apply and_congr_left'
  cases joins before .other <;> simp

theorem joined_iff (hequals : unicode.classOf '=' = .other) {front behind : List Char}
    (hfront : '=' ∉ front) :
    Joined unicode (front ++ '=' :: behind) ↔
      (after unicode.classOf [] front).head? = some .prepend ∧
        startsFrom unicode.classOf [.other] behind = 0 := by
  rw [← startsFrom_equals hequals]
  unfold Joined keyLength graphemesOf
  rw [take_idxOf_append hfront, length_graphemes, length_graphemes, startsFrom_append]
  constructor
  · rintro ⟨-, hcount⟩
    omega
  · intro hzero
    exact ⟨List.mem_append_right _ List.mem_cons_self, by omega⟩

/-- Dashes before a name change nothing about its `=`. -/
theorem joined_dashes (hequals : unicode.classOf '=' = .other) (text : List Char) :
    Joined unicode text ↔ Joined unicode ('-' :: '-' :: text) := by
  by_cases hmem : '=' ∈ text
  · obtain ⟨front, behind, rfl, hfront⟩ := List.eq_append_cons_of_mem hmem
    have hdashes : '=' ∉ '-' :: '-' :: front := by simp [hfront]
    have hboth := @joined_iff unicode hequals ('-' :: '-' :: front) behind hdashes
    rw [List.cons_append, List.cons_append] at hboth
    rw [joined_iff hequals hfront, hboth]
    apply and_congr_left'
    cases hlast : front.getLast? with
    | none =>
      obtain rfl := List.getLast?_eq_none_iff.mp hlast
      have hlow := unicode.below_floor '-' (by decide)
      have hdash : ∀ k ∈ [GraphemeClass.cr, .lf, .control, .pictographic, .other],
          k ≠ .prepend := by decide
      have hne := hdash _ hlow
      rw [@head?_after ['-', '-'] unicode [] '-' rfl]
      simp [after, hne]
    | some c =>
      have hlast' : ('-' :: '-' :: front).getLast? = some c := by
        rw [List.getLast?_cons, List.getLast?_cons, hlast]
        rfl
      rw [head?_after unicode [] hlast, head?_after unicode [] hlast']
  · have hdashes : '=' ∉ '-' :: '-' :: text := by simp [hmem]
    exact ⟨fun h => absurd h.1 hmem, fun h => absurd h.1 hdashes⟩

theorem joined_of_isName (hequals : unicode.classOf '=' = .other) {content content' : List UInt8}
    (h : isName unicode name content) (h' : isName unicode name content')
    (hjoined : Joined unicode (lossy content)) : Joined unicode (lossy content') := by
  have hdashes : Joined unicode (lossy name.content) ↔
      Joined unicode (lossy (encode ['-', '-'] ++ name.content)) := by
    rw [lossy_dashes]
    exact joined_dashes hequals _
  exact isName_forall (p := fun content => Joined unicode (lossy content)) hdashes h h' hjoined

/-- An argument on its own gives what it says, or no argument gives anything. -/
theorem missesNothing (hequals : unicode.classOf '=' = .other) (name : QnSlice) :
    MissesNothing (takesNext unicode name) QnSlice.content (given unicode name)
        (yields unicode name) ∨
      ∀ tok next, yields unicode name tok next = none := by
  -- either no name has an `=`, or what is found of it tells that all names are found
  by_cases hfound : ∀ content, isName unicode name content → '=' ∈ lossy content →
      Joined unicode (lossy content) ∧ encode (lossy content) = content
  · left
    intro tok next hsays
    have hmatch : isName unicode name (keyContent unicode tok) := by
      unfold alone at hsays
      split at hsays
      case isTrue htakes =>
        by_cases hmem : '=' ∈ textStr tok
        · have hname := hfound tok.content htakes (by rwa [← textStr_eq])
          exact match_of_takesNext htakes hname.1 hname.2
        · rw [keyContent_of_notMem hmem]
          exact htakes
      case isFalse =>
        obtain ⟨value, hvalue⟩ := Option.isSome_iff_exists.mp hsays
        obtain ⟨a, b, hclusters, hname, -⟩ := given_eq_some hvalue
        apply match_of_given hclusters hname
        intro hinside
        have hjoined := (hfound _ hname (by rwa [lossy_encode])).1
        rwa [lossy_encode] at hjoined
    unfold yields
    rw [if_pos hmatch]
    split
    · rfl
    · next hmem =>
      unfold alone at hsays
      split at hsays
      · rw [Option.isSome_map] at hsays ⊢
        exact hsays
      · obtain ⟨value, hvalue⟩ := Option.isSome_iff_exists.mp hsays
        exact absurd (given_eq_value hmatch hvalue).1 hmem
  · right
    intro tok next
    unfold yields
    rw [if_neg]
    intro hmatch
    apply hfound
    intro content hname hmem
    have hkey := joined_of_match ((equals_mem_iff hname hmatch).mp hmem)
    exact ⟨joined_of_isName hequals hmatch hname hkey.1, valid_of_isName hmatch hname hkey.2⟩

end Arguments

/-! ### When both readings agree -/

section Main

/-- `getOpt` takes the argument for its option. -/
def Matches (unicode : Unicode) (name tok : QnSlice) : Prop :=
  ∃ key, wanted unicode name = some key ∧ namesOption unicode name key tok = some true

/-- The argument behind `front` and before `rest` is an option where it is taken for one, and stands
behind no name then. -/
structure OptionFits (unicode : Unicode) (name : QnSlice) (front : List QnSlice) (tok : QnSlice)
    (rest : List QnSlice) : Prop where
  taken : Matches unicode name tok → '=' ∈ textStr tok →
    (given unicode name tok).isSome ∨
      (takesNext unicode name tok ∧ ∃ next ∈ rest.head?, next.content = [])
  found : (takesNext unicode name tok ∧ rest ≠ []) ∨ (given unicode name tok).isSome →
    Matches unicode name tok
  apart : Matches unicode name tok → '=' ∈ textStr tok ∨ rest ≠ [] →
    ∀ last ∈ front.getLast?, takesNext unicode name last = false

variable {front rest : List QnSlice}

theorem matches_iff (hname : WellFormed unicode name) (htok : WellFormed unicode tok) :
    Matches unicode name tok ↔ isName unicode name (keyContent unicode tok) := by
  obtain ⟨key, hkey, hcontent⟩ := wanted_eq hname
  unfold Matches
  constructor
  · rintro ⟨key', hkey', hnames⟩
    obtain rfl : key = key' := Option.some.inj (hkey.symm.trans hkey')
    rw [namesOption_eq htok hcontent] at hnames
    exact Option.some.inj hnames
  · intro hmatch
    exact ⟨key, hkey, by rw [namesOption_eq htok hcontent, hmatch]⟩

/-- On its own an argument gives what it says if it is found where it is an option, and an option
where it is found. -/
theorem yields_eq_alone_iff :
    yields unicode name tok rest.head? =
        alone (takesNext unicode name) QnSlice.content (given unicode name) tok rest.head? ↔
      (isName unicode name (keyContent unicode tok) → '=' ∈ textStr tok →
        (given unicode name tok).isSome ∨
          (takesNext unicode name tok ∧ ∃ next ∈ rest.head?, next.content = [])) ∧
      ((takesNext unicode name tok ∧ rest ≠ []) ∨ (given unicode name tok).isSome →
        isName unicode name (keyContent unicode tok)) := by
  unfold yields alone
  by_cases hmatch : isName unicode name (keyContent unicode tok) = true
  · rw [if_pos hmatch]
    by_cases hmem : '=' ∈ textStr tok
    · rw [if_pos hmem]
      by_cases htakes : takesNext unicode name tok = true
      · rw [if_pos htakes, valueContent_of_takesNext hmatch htakes hmem]
        simp only [hmatch, hmem, htakes, given_of_takesNext htakes, Option.isSome_none,
          Bool.false_eq_true, false_or, true_and, true_implies, implies_true, and_true]
        cases rest.head? with
        | none => simp
        | some next => simp [eq_comm]
      · rw [if_neg htakes]
        simp only [hmatch, hmem, htakes, Bool.false_eq_true, false_and, or_false, true_implies,
          implies_true, and_true]
        constructor
        · intro heq
          rw [← heq]
          rfl
        · intro hsome
          obtain ⟨value, hvalue⟩ := Option.isSome_iff_exists.mp hsome
          rw [hvalue, (given_eq_value hmatch hvalue).2]
    · have htakes : takesNext unicode name tok = true := by
        rw [keyContent_of_notMem hmem] at hmatch
        exact hmatch
      rw [if_neg hmem, if_pos htakes]
      simp [hmem, hmatch]
  · rw [if_neg hmatch]
    by_cases htakes : takesNext unicode name tok = true
    · rw [if_pos htakes]
      simp only [hmatch, htakes, given_of_takesNext htakes]
      cases rest with
      | nil => simp
      | cons next rest => simp
    · rw [if_neg htakes]
      simp only [hmatch, htakes]
      cases given unicode name tok <;> simp

theorem isSome_yields_iff :
    (yields unicode name tok rest.head?).isSome ↔
      isName unicode name (keyContent unicode tok) ∧ ('=' ∈ textStr tok ∨ rest ≠ []) := by
  unfold yields
  by_cases hmatch : isName unicode name (keyContent unicode tok) = true
  · rw [if_pos hmatch]
    by_cases hmem : '=' ∈ textStr tok
    · rw [if_pos hmem]
      simp [hmatch, hmem]
    · rw [if_neg hmem, Option.isSome_map]
      cases rest <;> simp [hmatch, hmem]
  · rw [if_neg hmatch]
    simp [hmatch]

theorem optionFits_iff (hname : WellFormed unicode name) (htok : WellFormed unicode tok) :
    OptionFits unicode name front tok rest ↔
      yields unicode name tok rest.head? =
          alone (takesNext unicode name) QnSlice.content (given unicode name) tok rest.head? ∧
        ((yields unicode name tok rest.head?).isSome →
          ∀ last ∈ front.getLast?, takesNext unicode name last = false) := by
  have hmatches := matches_iff hname htok
  rw [yields_eq_alone_iff, isSome_yields_iff, ← hmatches]
  constructor
  · rintro ⟨htaken, hfound, hapart⟩
    exact ⟨⟨htaken, hfound⟩, fun h => hapart h.1 h.2⟩
  · rintro ⟨⟨htaken, hfound⟩, hapart⟩
    exact ⟨htaken, hfound, fun h h' => hapart ⟨h, h'⟩⟩

/-- The answer is the values of a reading of each argument on its own. -/
theorem readsPositionally_iff (hargs : ∀ arg ∈ args, WellFormed unicode arg)
    (hname : WellFormed unicode name) :
    ReadsPositionally unicode args name ↔
      optionValues unicode name args.tail = independent (yields unicode name) args.tail := by
  obtain ⟨vals, hcontents, hanswer⟩ := getOpt_eq hargs hname
  unfold ReadsPositionally
  rw [hanswer, ← hcontents]
  cases hvalues : optionValues unicode name args.tail with
  | nil =>
    cases vals with
    | nil => simp
    | cons value vals => simp
  | cons value values =>
    cases vals with
    | nil => simp
    | cons value' vals => simp [eq_comm]

theorem readsPositionally_iff_fits (hequals : unicode.classOf '=' = .other)
    (hargs : ∀ arg ∈ args, WellFormed unicode arg) (hname : WellFormed unicode name) :
    ReadsPositionally unicode args name ↔
      ∀ front tok rest, args.tail = front ++ tok :: rest →
        OptionFits unicode name front tok rest := by
  rw [readsPositionally_iff hargs hname]
  unfold optionValues
  rw [positional_eq_independent_iff (missesNothing hequals name)]
  unfold Fits
  refine forall_congr' fun front => forall_congr' fun tok => forall_congr' fun rest =>
    forall_congr' fun hsplit => ?_
  have htok : WellFormed unicode tok := by
    refine hargs tok (List.mem_of_mem_tail ?_)
    rw [hsplit]
    exact List.mem_append_right _ List.mem_cons_self
  exact (optionFits_iff hname htok).symm

/-- **Options are read positionally** exactly if each argument behind the first is an option where
it is taken for one, is found where it is an option, and stands behind no name where it is found. -/
theorem getOpt_positional_iff (hequals : unicode.classOf '=' = .other)
    (hargs : ∀ arg ∈ args, WellFormed unicode arg) (hname : WellFormed unicode name) :
    ReadsPositionally unicode args name ↔
      ∀ front tok rest, args.tail = front ++ tok :: rest →
        OptionFits unicode name front tok rest :=
  readsPositionally_iff_fits hequals hargs hname

end Main

/-! ### Two command lines -/

section Runs

theorem wellFormed_literals (written : List String) :
    ∀ arg ∈ written.map (literal latin), WellFormed latin arg := by
  intro arg harg
  obtain ⟨text, -, rfl⟩ := List.mem_map.mp harg
  exact wellFormed_literalText latin _

theorem isName_n : isName latin (literal latin "n") (encode "--n".toList) := by
  have hdashed : dashed latin (literal latin "n") = encode "--n".toList := by
    unfold dashed
    rw [textStr_literal, content_literal]
    decide
  unfold isName
  rw [hdashed]
  simp

/-- `--n=v` -/
theorem getOpt_positional_value :
    ReadsPositionally latin (["p", "--n=v"].map (literal latin)) (literal latin "n") := by
  have hclusters : graphemesOf latin (textStr (literal latin "--n=v")) =
      [['-'], ['-'], ['n']] ++ ['='] :: [['v']] := by
    rw [textStr_literal]
    decide
  have hname : WellFormed latin (literal latin "n") := wellFormed_literalText latin _
  have htok : WellFormed latin (literal latin "--n=v") := wellFormed_literalText latin _
  refine (getOpt_positional_iff (by decide) (wellFormed_literals _) hname).mpr ?_
  intro front tok rest hsplit
  obtain ⟨rfl, rfl, rfl⟩ : front = [] ∧ tok = literal latin "--n=v" ∧ rest = [] := by
    cases front with
    | nil =>
      injection hsplit with hhead htail
      exact ⟨rfl, hhead.symm, htail.symm⟩
    | cons first front =>
      injection hsplit with _ htail
      exact absurd htail (by simp)
  refine ⟨fun _ _ => .inl (isSome_given hclusters isName_n), fun _ => ?_, fun _ _ _ h => by cases h⟩
  rw [matches_iff hname htok]
  exact match_of_given hclusters isName_n fun hinside => absurd hinside (by decide)

/-- In `--n --n x` the second `--n` is the value of the first, and takes `x` for its own. -/
theorem not_readsPositionally_repeated :
    ¬ ReadsPositionally latin (["p", "--n", "--n", "x"].map (literal latin))
      (literal latin "n") := by
  have hname : WellFormed latin (literal latin "n") := wellFormed_literalText latin _
  have htok : WellFormed latin (literal latin "--n") := wellFormed_literalText latin _
  have hkey : keyContent latin (literal latin "--n") = encode "--n".toList :=
    keyContent_of_notMem (by rw [textStr_literal]; decide)
  intro hreads
  have hfits := (readsPositionally_iff_fits (by decide) (wellFormed_literals _) hname).mp hreads
    [literal latin "--n"] (literal latin "--n") [literal latin "x"] rfl
  have hmatch : Matches latin (literal latin "n") (literal latin "--n") := by
    rw [matches_iff hname htok, hkey]
    exact isName_n
  have hlast := hfits.apart hmatch (.inr (List.cons_ne_nil _ _)) (literal latin "--n") rfl
  have htakes : takesNext latin (literal latin "n") (literal latin "--n") = true := isName_n
  rw [htakes] at hlast
  cases hlast

end Runs

end Quilon.Cli
