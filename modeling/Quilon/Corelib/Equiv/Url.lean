import Quilon.Corelib.Equiv.Params

/-!
# Splitting a URL

A `Url` is the parts of a URL, each over the characters it may be written with; `Url.text` writes
them one behind another.  `Splits` says that the accessors of a request give the parts back.

They do unless a scheme is looked for in the wrong place, or a port in the address of a host
(`splits_iff`).
-/

namespace Quilon.Http

open Text Utf8 Collections

/-! ### The characters of the parts -/

def isUnreserved (c : Char) : Bool := c.isAlphanum || c ∈ ['-', '.', '_', '~']

def isSubDelim (c : Char) : Bool :=
  c ∈ ['!', '$', '&', '\x27', '(', ')', '*', '+', ',', ';', '=']

def isSchemeChar (c : Char) : Bool := c.isAlphanum || c ∈ ['+', '-', '.']

/-- Of a registered name; the sign `%` begins what is percent-encoded. -/
def isNameChar (c : Char) : Bool := isUnreserved c || isSubDelim c || c == '%'

def isUserinfoChar (c : Char) : Bool := isNameChar c || c == ':'

/-- Of an IPv6 address. -/
def isAddressChar (c : Char) : Bool := c.isAlphanum || c ∈ [':', '.']

def isPathChar (c : Char) : Bool := isNameChar c || c ∈ [':', '@', '/']

/-- Of a query, and of a fragment. -/
def isQueryChar (c : Char) : Bool := isPathChar c || c == '?'

/-- The host a URL names: a name or an IPv4 address, or an IPv6 address in brackets. -/
inductive Host where
  | name (chars : List Char) (nonempty : chars ≠ []) (allowed : ∀ c ∈ chars, isNameChar c)
  | address (chars : List Char) (colon : ':' ∈ chars) (allowed : ∀ c ∈ chars, isAddressChar c)

namespace Host

def text : Host → List Char
  | name chars _ _ => chars
  | address chars _ _ => '[' :: chars ++ [']']

def bracketed : Host → Bool
  | name _ _ _ => false
  | address _ _ _ => true

end Host

/-- The parts of a URL. -/
structure Url where
  scheme : Option (List Char)
  userinfo : Option (List Char)
  host : Host
  port : Option (List Char)
  path : List Char
  query : Option (List Char)
  fragment : Option (List Char)
  scheme_begins : ∀ chars ∈ scheme, ∃ c ∈ chars.head?, c.isAlpha
  scheme_allowed : ∀ chars ∈ scheme, ∀ c ∈ chars, isSchemeChar c
  userinfo_allowed : ∀ chars ∈ userinfo, ∀ c ∈ chars, isUserinfoChar c
  port_allowed : ∀ chars ∈ port, ∀ c ∈ chars, c.isDigit
  path_begins : ∀ c ∈ path.head?, c = '/'
  path_allowed : ∀ c ∈ path, isPathChar c
  query_allowed : ∀ chars ∈ query, ∀ c ∈ chars, isQueryChar c
  fragment_allowed : ∀ chars ∈ fragment, ∀ c ∈ chars, isQueryChar c

namespace Url

variable (url : Url)

def schemeText : List Char := url.scheme.elim [] fun chars => chars ++ [':', '/', '/']

def userinfoText : List Char := url.userinfo.elim [] fun chars => chars ++ ['@']

def portText : List Char := url.port.elim [] fun chars => ':' :: chars

def queryText : List Char := url.query.elim [] fun chars => '?' :: chars

def fragmentText : List Char := url.fragment.elim [] fun chars => '#' :: chars

/-- `host[:port]` -/
def authorityText : List Char := url.host.text ++ url.portText

/-- What stands between the scheme and the path. -/
def named : List Char := url.userinfoText ++ url.authorityText

/-- The path and the query, as they are written. -/
def target : List Char := url.path ++ url.queryText

def withoutScheme : List Char := url.named ++ (url.target ++ url.fragmentText)

def text : List Char := url.schemeText ++ url.withoutScheme

/-- The path a request asks for. -/
def rootedPath : List Char := if url.path = [] then ['/'] else url.path

/-- The scheme, lower-cased. -/
def lowerScheme : List Char := url.scheme.elim [] fun chars => chars.map Char.toLower

/-- Whether the transport is TLS. -/
def secure (transport : Transport) : Bool :=
  transport = .TLS || url.lowerScheme = "https".toList

/-- A port stands behind its colon. -/
def namesPort : Bool := url.port.any fun chars => chars ≠ []

/-- The port to connect to. -/
def portOf (transport : Transport) : List Char :=
  if url.namesPort then url.port.getD []
  else if url.secure transport then "443".toList else "80".toList

end Url

/-- The accessors of a request give the parts of its URL. -/
structure Splits {User : Type} (users : UserKeys User) (finish : UInt8 → Written → UInt64)
    (order : EntryOrder User) (debug : Bool) (unicode : Unicode) (url : Url) (it : Request) :
    Prop where
  scheme : ∃ text, it.scheme unicode = some text ∧ text.content = encode url.lowerScheme
  authority : ∃ text, it.authority unicode = some text ∧ text.content = encode url.authorityText
  path : ∃ text, it.path unicode = some text ∧
    text.content = encode (url.rootedPath ++ url.queryText)
  params : ∃ params : Params users finish, it.params unicode order debug = some params ∧
    ∀ name : QnSlice, (params.all name).map (·.content) =
      valuesOf (url.query.elim [] pairsOf) name
  address : ∃ text chars, it.address unicode = some text ∧ text.content = encode chars ∧
    ':' :: url.portOf it.options.transport <:+ chars

/-! ### What the parts are written with -/

section Characters

variable {c : Char} {chars : List Char} {url : Url}

theorem isAlphanum_lt (h : c.isAlphanum) : c.toNat < 128 := by
  delta Char.isAlphanum Char.isAlpha Char.isUpper Char.isLower Char.isDigit at h
  simp only [Bool.or_eq_true, Bool.and_eq_true, decide_eq_true_eq, ge_iff_le,
    UInt32.le_iff_toNat_le] at h
  change ((65 ≤ c.toNat ∧ c.toNat ≤ 90) ∨ (97 ≤ c.toNat ∧ c.toNat ≤ 122)) ∨
    (48 ≤ c.toNat ∧ c.toNat ≤ 57) at h
  omega

/-- A character of an authority with its user. -/
def isNamedChar (c : Char) : Bool := isUserinfoChar c || c ∈ ['@', '[', ']']

/-- A character of a URL. -/
def isUrlChar (c : Char) : Bool := isQueryChar c || c ∈ ['[', ']', '#']

theorem isUrlChar_lt (h : isUrlChar c) : c.toNat < 128 := by
  simp only [isUrlChar, isQueryChar, isPathChar, isNameChar, isUnreserved, isSubDelim,
    Bool.or_eq_true, decide_eq_true_eq, beq_iff_eq] at h
  have hlist : ∀ list : List Char, c ∈ list → list.all (fun c => c.toNat < 128) = true →
      c.toNat < 128 := fun list hc hall => of_decide_eq_true (List.all_eq_true.mp hall c hc)
  rcases h with (((((h | h) | h) | rfl) | h) | rfl) | h
  · exact isAlphanum_lt h
  · exact hlist _ h (by decide)
  · exact hlist _ h (by decide)
  · decide
  · exact hlist _ h (by decide)
  · decide
  · exact hlist _ h (by decide)

theorem isPlain_of_isUrlChar (h : isUrlChar c) : IsPlain c := by
  refine ⟨?_, ?_⟩
  · have hlt := isUrlChar_lt h
    show c.toNat < 0x300
    omega
  · rintro rfl
    cases h

theorem isNameChar_of_isSchemeChar (h : isSchemeChar c) : isNameChar c := by
  simp only [isSchemeChar, isNameChar, isUnreserved, isSubDelim, Bool.or_eq_true,
    decide_eq_true_eq, beq_iff_eq, List.mem_cons, List.not_mem_nil, or_false] at h ⊢
  rcases h with h | rfl | rfl | rfl <;> simp [*]

theorem isUserinfoChar_of_isAddressChar (h : isAddressChar c) : isUserinfoChar c := by
  simp only [isAddressChar, isUserinfoChar, isNameChar, isUnreserved, Bool.or_eq_true,
    decide_eq_true_eq, beq_iff_eq, List.mem_cons, List.not_mem_nil, or_false] at h ⊢
  rcases h with h | rfl | rfl <;> simp [*]

theorem isUserinfoChar_of_isDigit (h : c.isDigit) : isUserinfoChar c := by
  simp [isUserinfoChar, isNameChar, isUnreserved, Char.isAlphanum, h]

theorem isUrlChar_of_isNamedChar (h : isNamedChar c) : isUrlChar c := by
  simp only [isNamedChar, isUrlChar, isUserinfoChar, isQueryChar, isPathChar, Bool.or_eq_true,
    decide_eq_true_eq, beq_iff_eq, List.mem_cons, List.not_mem_nil, or_false] at h ⊢
  rcases h with (h | rfl) | rfl | rfl | rfl <;> simp [*]

/-- What a part may not be written with does not stand in it. -/
theorem notMem_of_allowed {p : Char → Bool} (h : ∀ c ∈ chars, p c) (hc : p c = false) :
    c ∉ chars := by
  intro hmem
  rw [h c hmem] at hc
  cases hc

theorem host_allowed (host : Host) : ∀ c ∈ host.text, isUserinfoChar c || c ∈ ['[', ']'] := by
  intro c hc
  cases host with
  | name chars _ allowed =>
    have hname := allowed c hc
    simp [isUserinfoChar, hname]
  | address chars _ allowed =>
    rcases List.mem_append.mp hc with hc | hc
    · rcases List.mem_cons.mp hc with rfl | hc
      · decide
      · simp [isUserinfoChar_of_isAddressChar (allowed c hc)]
    · obtain rfl := List.mem_singleton.mp hc
      decide

theorem port_allowed (url : Url) : ∀ c ∈ url.portText, c.isDigit || c == ':' := by
  unfold Url.portText
  cases hport : url.port with
  | none => exact nofun
  | some chars =>
    intro c hc
    rcases List.mem_cons.mp hc with rfl | hc
    · decide
    · simp [url.port_allowed chars hport c hc]

theorem authority_allowed (url : Url) :
    ∀ c ∈ url.authorityText, isUserinfoChar c || c ∈ ['[', ']'] := by
  intro c hc
  rcases List.mem_append.mp hc with hc | hc
  · exact host_allowed url.host c hc
  · have hport := port_allowed url c hc
    rw [Bool.or_eq_true, beq_iff_eq] at hport
    rcases hport with hdigit | rfl
    · simp [isUserinfoChar_of_isDigit hdigit]
    · decide

theorem named_allowed (url : Url) : ∀ c ∈ url.named, isNamedChar c := by
  intro c hc
  rcases List.mem_append.mp hc with hc | hc
  · unfold Url.userinfoText at hc
    cases huser : url.userinfo with
    | none =>
      rw [huser] at hc
      cases hc
    | some chars =>
      rw [huser] at hc
      rcases List.mem_append.mp hc with hc | hc
      · simp [isNamedChar, url.userinfo_allowed chars huser c hc]
      · obtain rfl := List.mem_singleton.mp hc
        decide
  · have hauthority := authority_allowed url c hc
    unfold isNamedChar
    rw [Bool.or_eq_true, decide_eq_true_eq] at hauthority ⊢
    exact hauthority.imp_right (List.mem_cons_of_mem _)

theorem target_allowed (url : Url) : ∀ c ∈ url.target, isQueryChar c := by
  intro c hc
  rcases List.mem_append.mp hc with hc | hc
  · simp [isQueryChar, url.path_allowed c hc]
  · unfold Url.queryText at hc
    cases hquery : url.query with
    | none =>
      rw [hquery] at hc
      cases hc
    | some chars =>
      rw [hquery] at hc
      rcases List.mem_cons.mp hc with rfl | hc
      · decide
      · exact url.query_allowed chars hquery c hc

theorem withoutScheme_allowed (url : Url) : ∀ c ∈ url.withoutScheme, isUrlChar c := by
  intro c hc
  rcases List.mem_append.mp hc with hc | hc
  · exact isUrlChar_of_isNamedChar (named_allowed url c hc)
  · rcases List.mem_append.mp hc with hc | hc
    · simp [isUrlChar, target_allowed url c hc]
    · unfold Url.fragmentText at hc
      cases hfragment : url.fragment with
      | none =>
        rw [hfragment] at hc
        cases hc
      | some chars =>
        rw [hfragment] at hc
        rcases List.mem_cons.mp hc with rfl | hc
        · decide
        · simp [isUrlChar, url.fragment_allowed chars hfragment c hc]

theorem text_allowed (url : Url) : ∀ c ∈ url.text, isUrlChar c := by
  intro c hc
  rcases List.mem_append.mp hc with hc | hc
  · unfold Url.schemeText at hc
    cases hscheme : url.scheme with
    | none =>
      rw [hscheme] at hc
      cases hc
    | some chars =>
      rw [hscheme] at hc
      rcases List.mem_append.mp hc with hc | hc
      · have hname := isNameChar_of_isSchemeChar (url.scheme_allowed chars hscheme c hc)
        simp [isUrlChar, isQueryChar, isPathChar, hname]
      · simp only [List.mem_cons, List.not_mem_nil, or_false] at hc
        rcases hc with rfl | rfl | rfl <;> decide
  · exact withoutScheme_allowed url c hc

end Characters

/-! ### What the accessors answer -/

/-- Lower-casing is that of ASCII on ASCII. -/
def LowersAscii (unicode : Unicode) : Prop :=
  ∀ text : List Char, (∀ c ∈ text, c.toNat < 128) →
    unicode.toLowercase text = text.map Char.toLower

section Accessors

variable {unicode : Unicode} {url : Url} {it : Request} {text : QnSlice} {chars : List Char}

theorem foundOrEnd_singleton (h : Holds unicode text chars) {written : String} {c : Char}
    (hwritten : written.toList = [c]) :
    foundOrEnd unicode text (literal unicode written) = some (chars.idxOf c : Int) := by
  unfold foundOrEnd
  rw [h.indexOf_eq, hwritten, strFind, if_neg (List.cons_ne_nil _ _), firstIndexOf_singleton]
  by_cases hmem : c ∈ chars
  · rw [if_pos hmem]
    rfl
  · rw [if_neg hmem, List.idxOf_eq_length hmem, ← h.length_eq]
    rfl

theorem strFind_cons (c : Char) (needle chars : List Char) :
    strFind chars (c :: needle) = firstIndexOf (c :: needle) chars := if_neg (List.cons_ne_nil _ _)

/-- The first `://` of the URL is that behind its scheme. -/
def Url.MarkFits (url : Url) : Prop := url.scheme.isSome ∨ ¬ [':', '/', '/'] <:+: url.text

theorem colon_notMem_scheme (hscheme : url.scheme = some chars) : ':' ∉ chars :=
  notMem_of_allowed (url.scheme_allowed chars hscheme) rfl

theorem strFind_mark (hfits : url.MarkFits) :
    strFind url.text [':', '/', '/'] = url.scheme.map List.length := by
  rw [strFind_cons]
  cases hscheme : url.scheme with
  | some chars =>
    have htext : url.text = chars ++ ':' :: (['/', '/'] ++ url.withoutScheme) := by
      unfold Url.text Url.schemeText
      rw [hscheme]
      exact List.append_assoc _ _ _
    rw [htext]
    exact firstIndexOf_append_of_notMem (colon_notMem_scheme hscheme)
  | none =>
    have hnone := hfits.resolve_left (by rw [hscheme]; exact Bool.false_ne_true)
    rw [Option.map_none, firstIndexOf_eq_none_iff (List.cons_ne_nil _ _)]
    intro j hmark
    exact hnone (hmark.isInfix.trans (List.drop_suffix j _).isInfix)

theorem lowerScheme_allowed (url : Url) : ∀ c ∈ url.lowerScheme, IsPlain c := by
  intro c hc
  unfold Url.lowerScheme at hc
  cases hscheme : url.scheme with
  | none =>
    rw [hscheme] at hc
    cases hc
  | some chars =>
    rw [hscheme] at hc
    obtain ⟨c, hmem, rfl⟩ := List.mem_map.mp hc
    have hname := isNameChar_of_isSchemeChar (url.scheme_allowed chars hscheme c hmem)
    have hurl : isUrlChar c := by simp [isUrlChar, isQueryChar, isPathChar, hname]
    have hall : ∀ n < 128, Char.ofNat n ≠ '\r' → IsPlain (Char.ofNat n).toLower := by decide
    have hplain := hall c.toNat (isUrlChar_lt hurl)
    rw [Char.ofNat_toNat] at hplain
    exact hplain (isPlain_of_isUrlChar hurl).2

/-- The scheme ends where the mark is found. -/
theorem scheme_eq (hlower : LowersAscii unicode) (h : Holds unicode it.url url.text)
    (hfits : url.MarkFits) :
    ∃ text, it.scheme unicode = some text ∧ Holds unicode text url.lowerScheme := by
  unfold Request.scheme
  rw [h.indexOf_eq, show "://".toList = [':', '/', '/'] from rfl, strFind_mark hfits]
  have hplain := lowerScheme_allowed url
  cases hscheme : url.scheme with
  | none =>
    unfold Url.lowerScheme
    rw [hscheme]
    exact ⟨_, rfl, holds_literal unicode (show ∀ c ∈ "".toList, IsPlain c from nofun)⟩
  | some chars =>
    have htext : url.text = chars ++ ([':', '/', '/'] ++ url.withoutScheme) := by
      unfold Url.text Url.schemeText
      rw [hscheme]
      exact List.append_assoc _ _ _
    have hle : chars.length ≤ url.text.length := by
      rw [htext, List.length_append]
      omega
    obtain ⟨part, hpart, hholds⟩ := h.slice_eq (Nat.zero_le chars.length) hle
    rw [List.drop_zero, htext, List.take_left] at hholds
    have hlow : unicode.toLowercase chars = chars.map Char.toLower := by
      apply hlower
      intro c hc
      have hname := isNameChar_of_isSchemeChar (url.scheme_allowed chars hscheme c hc)
      exact isUrlChar_lt (by simp [isUrlChar, isQueryChar, isPathChar, hname])
    have hscheme' : url.lowerScheme = chars.map Char.toLower := by
      unfold Url.lowerScheme
      rw [hscheme]
      rfl
    rw [hscheme'] at hplain ⊢
    refine ⟨part.toLower unicode, ?_, ?_⟩
    · simp only [Option.map_some, Option.bind_eq_bind, Option.bind_some]
      rw [show (0 : Int) = ((0 : Nat) : Int) from rfl, hpart]
      rfl
    · rw [← hlow] at hplain ⊢
      exact hholds.toLower hplain

/-- What stands behind the scheme. -/
theorem withoutScheme_eq (h : Holds unicode it.url url.text) (hfits : url.MarkFits) :
    ∃ rest, it.withoutScheme unicode = some rest ∧ Holds unicode rest url.withoutScheme := by
  unfold Request.withoutScheme
  rw [h.indexOf_eq, show "://".toList = [':', '/', '/'] from rfl, strFind_mark hfits]
  cases hscheme : url.scheme with
  | none =>
    have htext : url.text = url.withoutScheme := by
      unfold Url.text Url.schemeText
      rw [hscheme]
      rfl
    rw [htext] at h
    exact ⟨it.url, rfl, h⟩
  | some chars =>
    have htext : url.text = chars ++ [':', '/', '/'] ++ url.withoutScheme := by
      unfold Url.text Url.schemeText
      rw [hscheme]
      rfl
    have hle : chars.length + 3 ≤ url.text.length := by
      rw [htext, List.length_append, List.length_append]
      simp
    obtain ⟨part, hpart, hholds⟩ := h.slice_eq hle (Nat.le_refl _)
    have hlength : chars.length + 3 = (chars ++ [':', '/', '/']).length := by simp
    rw [List.take_length, hlength, htext, List.drop_left] at hholds
    refine ⟨part, ?_, hholds⟩
    simp only [Option.map_some, Option.bind_eq_bind, Option.bind_some]
    rw [h.length_eq, show ((chars.length : Int) + 3) = ((chars.length + 3 : Nat) : Int) by omega]
    exact hpart

/-- Behind the authority stands nothing, or what ends it. -/
theorem ends_authority (url : Url) :
    url.target ++ url.fragmentText = [] ∨
      ∃ c ∈ (url.target ++ url.fragmentText).head?, c = '/' ∨ c = '?' ∨ c = '#' := by
  unfold Url.target Url.queryText Url.fragmentText
  have hbegins := url.path_begins
  cases hpath : url.path with
  | cons c rest =>
    rw [hpath] at hbegins
    exact .inr ⟨c, rfl, .inl (hbegins c rfl)⟩
  | nil =>
    cases url.query with
    | some chars => exact .inr ⟨'?', rfl, .inr (.inl rfl)⟩
    | none =>
      cases url.fragment with
      | some chars => exact .inr ⟨'#', rfl, .inr (.inr rfl)⟩
      | none => exact .inl rfl

theorem idxOf_withoutScheme {c : Char} (h : c ∉ url.named) :
    url.withoutScheme.idxOf c =
      url.named.length + (url.target ++ url.fragmentText).idxOf c := by
  unfold Url.withoutScheme
  exact List.idxOf_append_of_notMem h

theorem authorityEnd_eq (h : Holds unicode it.url url.text) (hfits : url.MarkFits) :
    it.authorityEnd unicode = some (url.named.length : Int) := by
  obtain ⟨rest, hrest, hholds⟩ := withoutScheme_eq h hfits
  have hnamed := named_allowed url
  have hslash := @idxOf_withoutScheme url '/' (notMem_of_allowed hnamed rfl)
  have hmark := @idxOf_withoutScheme url '?' (notMem_of_allowed hnamed rfl)
  have hhash := @idxOf_withoutScheme url '#' (notMem_of_allowed hnamed rfl)
  unfold Request.authorityEnd
  rw [hrest]
  simp only [Option.bind_eq_bind, Option.bind_some]
  rw [foundOrEnd_singleton hholds (show "/".toList = ['/'] from rfl),
    foundOrEnd_singleton hholds (show "?".toList = ['?'] from rfl),
    foundOrEnd_singleton hholds (show "#".toList = ['#'] from rfl)]
  simp only [Option.bind_some, Option.pure_def, Option.some.injEq]
  rw [hslash, hmark, hhash]
  -- one of the three characters is the first behind the authority, if there is any
  rcases ends_authority url with hnil | ⟨c, hc, hends⟩
  · rw [hnil]
    simp
  · obtain ⟨behind, hbehind⟩ := List.head?_eq_some_iff.mp hc
    rw [hbehind]
    rcases hends with rfl | rfl | rfl
    · rw [List.idxOf_cons_self]
      split_ifs <;> omega
    · rw [List.idxOf_cons_self]
      split_ifs <;> omega
    · rw [List.idxOf_cons_self]
      split_ifs <;> omega

theorem splitOn_named (url : Url) :
    url.named.splitOn '@' = url.userinfo.elim [url.authorityText]
      fun chars => [chars, url.authorityText] := by
  have hauthority : '@' ∉ url.authorityText := notMem_of_allowed (authority_allowed url) rfl
  unfold Url.named Url.userinfoText
  cases huser : url.userinfo with
  | none => exact List.splitOn_eq_singleton hauthority
  | some chars =>
    have hchars : '@' ∉ chars := notMem_of_allowed (url.userinfo_allowed chars huser) rfl
    show ((chars ++ ['@']) ++ url.authorityText).splitOn '@' = _
    rw [List.append_assoc, List.singleton_append,
      List.splitOn_append_cons_self_of_not_mem hchars, List.splitOn_eq_singleton hauthority]
    rfl

/-- The user is dropped. -/
theorem authority_eq (h : Holds unicode it.url url.text) (hfits : url.MarkFits) :
    ∃ text, it.authority unicode = some text ∧ Holds unicode text url.authorityText := by
  obtain ⟨rest, hrest, hholds⟩ := withoutScheme_eq h hfits
  have hle : url.named.length ≤ url.withoutScheme.length := by
    unfold Url.withoutScheme
    rw [List.length_append]
    omega
  obtain ⟨named, hnamed, hnamedHolds⟩ := hholds.slice_eq (Nat.zero_le url.named.length) hle
  have htake : (url.withoutScheme.take url.named.length).drop 0 = url.named := by
    unfold Url.withoutScheme
    rw [List.take_left, List.drop_zero]
  rw [htake] at hnamedHolds
  have hparts := hnamedHolds.split (show "@".toList = ['@'] from rfl)
  rw [splitOn_named] at hparts
  have hanswer : it.authority unicode =
      (named.split unicode (literal unicode "@"))[
        (named.split unicode (literal unicode "@")).length - 1]? := by
    unfold Request.authority
    rw [hrest, authorityEnd_eq h hfits]
    simp only [Option.bind_eq_bind, Option.bind_some]
    rw [show (0 : Int) = ((0 : Nat) : Int) from rfl, hnamed]
    rfl
  rw [hanswer]
  generalize named.split unicode (literal unicode "@") = parts at hparts
  cases huser : url.userinfo with
  | none =>
    rw [huser] at hparts
    cases hparts with
    | cons hpart hnone =>
      cases hnone
      exact ⟨_, rfl, hpart⟩
  | some chars =>
    rw [huser] at hparts
    cases hparts with
    | cons _ hmore =>
      cases hmore with
      | cons hpart hnone =>
        cases hnone
        exact ⟨_, rfl, hpart⟩

/-- The fragment begins where it is looked for. -/
theorem idxOf_fragment (url : Url) :
    url.withoutScheme.idxOf '#' = url.named.length + url.target.length := by
  have htarget : '#' ∉ url.target := notMem_of_allowed (target_allowed url) rfl
  rw [idxOf_withoutScheme (notMem_of_allowed (named_allowed url) rfl),
    List.idxOf_append_of_notMem htarget]
  unfold Url.fragmentText
  cases url.fragment with
  | none => rfl
  | some chars =>
    show _ + (_ + List.idxOf '#' ('#' :: chars)) = _
    rw [List.idxOf_cons_self, Nat.add_zero]

/-- What is cut out behind the authority is the path with its query. -/
theorem target_eq (h : Holds unicode it.url url.text) (hfits : url.MarkFits) :
    ∃ target, it.target unicode = some target ∧ Holds unicode target url.target := by
  obtain ⟨rest, hrest, hholds⟩ := withoutScheme_eq h hfits
  have hlength : url.withoutScheme.length =
      url.named.length + url.target.length + url.fragmentText.length := by
    unfold Url.withoutScheme
    rw [List.length_append, List.length_append]
    omega
  unfold Request.target
  rw [hrest, authorityEnd_eq h hfits]
  simp only [Option.bind_eq_bind, Option.bind_some]
  rw [foundOrEnd_singleton hholds (show "#".toList = ['#'] from rfl), idxOf_fragment,
    Option.bind_some]
  by_cases hne : url.target = []
  · rw [if_neg (by rw [hne]; simp), hne]
    exact ⟨_, rfl, holds_literal unicode (show ∀ c ∈ "".toList, IsPlain c from nofun)⟩
  · have hpos := List.length_pos_iff.mpr hne
    rw [if_pos (by omega)]
    obtain ⟨target, hslice, htarget⟩ := hholds.slice_eq
      (show url.named.length ≤ url.named.length + url.target.length by omega) (by omega)
    refine ⟨target, hslice, ?_⟩
    have hcut : (url.withoutScheme.take (url.named.length + url.target.length)).drop
        url.named.length = url.target := by
      unfold Url.withoutScheme
      rw [List.take_length_add_append, List.drop_left, List.take_left]
    rwa [hcut] at htarget

/-- Path and query, with the root where the path is empty. -/
theorem path_eq (h : Holds unicode it.url url.text) (hfits : url.MarkFits) :
    ∃ text, it.path unicode = some text ∧
      Holds unicode text (url.rootedPath ++ url.queryText) := by
  obtain ⟨target, hcut, htarget⟩ := target_eq h hfits
  have hroot : Holds unicode (literal unicode "/") ['/'] :=
    holds_literal unicode (show ∀ c ∈ "/".toList, IsPlain c from
      List.forall_mem_singleton.mpr (by decide))
  have hnone : Holds unicode (literal unicode "") [] :=
    holds_literal unicode (show ∀ c ∈ "".toList, IsPlain c from nofun)
  unfold Request.path
  rw [hcut]
  simp only [Option.bind_eq_bind, Option.bind_some]
  by_cases hempty : url.target = []
  · have hequals : target.equals (literal unicode "") = true :=
      (htarget.equals_iff hnone).mpr hempty
    obtain ⟨hpath, hquery⟩ := List.append_eq_nil_iff.mp hempty
    rw [if_pos hequals]
    unfold Url.rootedPath
    rw [if_pos hpath, hquery]
    exact ⟨_, rfl, hroot⟩
  · have hequals : ¬ target.equals (literal unicode "") = true := fun hequals =>
      hempty ((htarget.equals_iff hnone).mp hequals)
    obtain ⟨first, hfirst, hfirstHolds⟩ := htarget.slice_eq (Nat.zero_le 1)
      (List.length_pos_iff.mpr hempty)
    have hfirst' : target.slice unicode 0 1 = some first := hfirst
    rw [if_neg hequals, hfirst', Option.bind_some]
    unfold Url.rootedPath
    by_cases hpath : url.path = []
    · have hhead : ¬ first.equals (literal unicode "/") = true := by
        rw [hfirstHolds.equals_iff hroot]
        unfold Url.target Url.queryText
        rw [hpath]
        cases url.query with
        | none => exact fun h => by cases h
        | some chars =>
          show ¬ ['?'] = ['/']
          decide
      have htext : url.target = url.queryText := by
        unfold Url.target
        rw [hpath]
        rfl
      rw [if_neg hhead, if_pos hpath]
      rw [htext] at htarget
      exact ⟨_, rfl, hroot.append htarget⟩
    · have hhead : first.equals (literal unicode "/") = true := by
        rw [hfirstHolds.equals_iff hroot]
        obtain ⟨c, rest, hcons⟩ := List.exists_cons_of_ne_nil hpath
        have hbegins := url.path_begins
        rw [hcons] at hbegins
        obtain rfl := hbegins c rfl
        unfold Url.target
        rw [hcons]
        rfl
      rw [if_pos hhead, if_neg hpath]
      exact ⟨_, rfl, htarget⟩

theorem rootedPath_allowed (url : Url) : ∀ c ∈ url.rootedPath, isPathChar c := by
  unfold Url.rootedPath
  split
  · exact List.forall_mem_singleton.mpr rfl
  · exact url.path_allowed

/-- The query begins behind the path. -/
theorem params_eq {User : Type} {users : UserKeys User} {finish : UInt8 → Written → UInt64}
    (order : EntryOrder User) (debug : Bool) (h : Holds unicode it.url url.text)
    (hfits : url.MarkFits) :
    ∃ params : Params users finish, it.params unicode order debug = some params ∧
      ∀ name : QnSlice, (params.all name).map (·.content) =
        valuesOf (url.query.elim [] pairsOf) name := by
  obtain ⟨target, hpath, htarget⟩ := path_eq h hfits
  have hmark : '?' ∉ url.rootedPath := notMem_of_allowed (rootedPath_allowed url) rfl
  unfold Request.params
  rw [hpath]
  simp only [Option.bind_eq_bind, Option.bind_some]
  rw [htarget.indexOf_eq, show "?".toList = ['?'] from rfl, strFind_cons, Option.bind_some]
  cases hquery : url.query with
  | none =>
    have htext : url.rootedPath ++ url.queryText = url.rootedPath := by
      unfold Url.queryText
      rw [hquery]
      exact List.append_nil _
    rw [htext, firstIndexOf_singleton, if_neg hmark]
    exact ⟨_, rfl, fun name => rfl⟩
  | some chars =>
    have htext : url.rootedPath ++ url.queryText = url.rootedPath ++ '?' :: ([] ++ chars) := by
      unfold Url.queryText
      rw [hquery]
      rfl
    rw [htext, firstIndexOf_append_of_notMem hmark]
    rw [htext] at htarget
    have hlength : (url.rootedPath ++ '?' :: ([] ++ chars)).length =
        url.rootedPath.length + 1 + chars.length := by
      rw [List.length_append, List.length_cons, List.nil_append]
      omega
    obtain ⟨query, hslice, hholds⟩ := htarget.slice_eq
      (show url.rootedPath.length + 1 ≤ (url.rootedPath ++ '?' :: ([] ++ chars)).length by omega)
      (Nat.le_refl _)
    rw [List.take_length, ← List.drop_drop, List.drop_left] at hholds
    obtain ⟨params, hparse, hall⟩ := @parse_eq _ users finish _ order debug _ _ hholds
    refine ⟨params, ?_, hall⟩
    simp only [Option.map_some]
    rw [htarget.length_eq, show ((url.rootedPath.length : Int) + 1) =
      ((url.rootedPath.length + 1 : Nat) : Int) by omega, hslice, Option.bind_some]
    exact hparse

theorem usesTLS_eq (hlower : LowersAscii unicode) (h : Holds unicode it.url url.text)
    (hfits : url.MarkFits) : it.usesTLS unicode = some (url.secure it.options.transport) := by
  unfold Request.usesTLS Url.secure
  cases it.options.transport with
  | TLS => rfl
  | Plain =>
    obtain ⟨scheme, hscheme, hholds⟩ := scheme_eq hlower h hfits
    have hhttps : Holds unicode (literal unicode "https") "https".toList :=
      holds_literal unicode
        (List.all_iff_forall_prop.mp (show "https".toList.all (IsPlain ·) = true by decide))
    rw [hscheme]
    show some _ = _
    rw [Option.some.injEq, Bool.eq_iff_iff, hholds.equals_iff hhttps]
    simp

/-- The default port is appended where the authority has no colon. -/
theorem address_eq (hlower : LowersAscii unicode) (h : Holds unicode it.url url.text)
    (hfits : url.MarkFits) :
    ∃ text, it.address unicode = some text ∧ Holds unicode text
      (if ':' ∈ url.authorityText then url.authorityText
        else url.authorityText ++
          (if url.secure it.options.transport then ":443" else ":80").toList) := by
  obtain ⟨host, hhost, hholds⟩ := authority_eq h hfits
  have hcontains : host.contains unicode (literal unicode ":") =
      some (decide (':' ∈ url.authorityText)) := by
    unfold QnSlice.contains
    rw [hholds.indexOf_eq, show ":".toList = [':'] from rfl, strFind_cons, firstIndexOf_singleton]
    by_cases hmem : ':' ∈ url.authorityText
    · rw [if_pos hmem, decide_eq_true hmem]
      rfl
    · rw [if_neg hmem, decide_eq_false hmem]
      rfl
  unfold Request.address
  rw [usesTLS_eq hlower h hfits, hhost]
  simp only [Option.bind_eq_bind, Option.bind_some]
  rw [hcontains, Option.bind_some]
  by_cases hmem : ':' ∈ url.authorityText
  · rw [if_pos (decide_eq_true hmem), if_pos hmem]
    exact ⟨_, rfl, hholds⟩
  · rw [if_neg (by simp [hmem]), if_neg hmem]
    refine ⟨_, rfl, hholds.append (holds_literal unicode ?_)⟩
    split
    · exact List.all_iff_forall_prop.mp (show ":443".toList.all (IsPlain ·) = true by decide)
    · exact List.all_iff_forall_prop.mp (show ":80".toList.all (IsPlain ·) = true by decide)

end Accessors

/-! ### When the parts come back -/

section Main

variable {unicode : Unicode} {url : Url} {it : Request} {chars : List Char}

/-- The port can be told from the host: it is named, or the host is no address in brackets and no
colon stands behind it. -/
def Url.PortFits (url : Url) : Prop :=
  url.namesPort ∨ (url.host.bracketed = false ∧ url.port = none)

theorem colon_mem_authority_iff (url : Url) :
    ':' ∈ url.authorityText ↔ url.host.bracketed = true ∨ url.port.isSome = true := by
  unfold Url.authorityText
  rw [List.mem_append]
  apply or_congr
  · cases url.host with
    | name chars _ allowed =>
      exact ⟨fun hmem => absurd hmem (notMem_of_allowed allowed rfl), fun h => by cases h⟩
    | address chars colon _ =>
      exact ⟨fun _ => rfl, fun _ => List.mem_append_left _ (List.mem_cons_of_mem _ colon)⟩
  · unfold Url.portText
    cases url.port with
    | none => simp
    | some chars => simp

/-- Where it is named, the port is the last part of the authority. -/
theorem portOf_suffix (hfits : url.PortFits) (transport : Transport) :
    ':' :: url.portOf transport <:+
      (if ':' ∈ url.authorityText then url.authorityText
        else url.authorityText ++ (if url.secure transport then ":443" else ":80").toList) := by
  unfold Url.portOf
  by_cases hnamed : url.namesPort = true
  · obtain ⟨chars, hport⟩ : ∃ chars, url.port = some chars := by
      cases hport : url.port with
      | some chars => exact ⟨chars, rfl⟩
      | none =>
        unfold Url.namesPort at hnamed
        rw [hport] at hnamed
        cases hnamed
    have hmem : ':' ∈ url.authorityText :=
      (colon_mem_authority_iff url).mpr (.inr (by rw [hport]; rfl))
    rw [if_pos hmem, if_pos hnamed]
    unfold Url.authorityText Url.portText
    rw [hport]
    exact List.suffix_append _ _
  · obtain ⟨hhost, hport⟩ := hfits.resolve_left hnamed
    have hmem : ':' ∉ url.authorityText := by
      rw [colon_mem_authority_iff, hhost, hport]
      simp
    rw [if_neg hmem, if_neg hnamed]
    cases url.secure transport with
    | true => exact List.suffix_append _ _
    | false => exact List.suffix_append _ _

/-- Where it is not, the authority ends in a colon or a bracket. -/
theorem getLast?_authority (hunfit : ¬ url.PortFits) :
    url.authorityText.getLast? = some ':' ∨ url.authorityText.getLast? = some ']' := by
  have hnamed : url.namesPort ≠ true := fun h => hunfit (.inl h)
  unfold Url.authorityText Url.portText
  cases hport : url.port with
  | some chars =>
    unfold Url.namesPort at hnamed
    rw [hport] at hnamed
    have hnil : chars = [] := by simpa using hnamed
    rw [hnil]
    exact .inl List.getLast?_concat
  | none =>
    right
    rw [Option.elim_none, List.append_nil]
    cases hhost : url.host with
    | name chars nonempty allowed => exact absurd (.inr ⟨by rw [hhost]; rfl, hport⟩) hunfit
    | address chars colon allowed => exact List.getLast?_concat

theorem not_portOf_suffix (hunfit : ¬ url.PortFits) (transport : Transport) :
    ¬ ':' :: url.portOf transport <:+
      (if ':' ∈ url.authorityText then url.authorityText
        else url.authorityText ++ (if url.secure transport then ":443" else ":80").toList) := by
  have hmem : ':' ∈ url.authorityText := by
    rw [colon_mem_authority_iff]
    by_contra hnone
    rw [not_or, Bool.not_eq_true, Bool.not_eq_true, Option.isSome_eq_false_iff] at hnone
    exact hunfit (.inr ⟨hnone.1, Option.isNone_iff_eq_none.mp hnone.2⟩)
  rw [if_pos hmem]
  rintro ⟨front, hfront⟩
  have hlast : url.authorityText.getLast? = (':' :: url.portOf transport).getLast? := by
    rw [← hfront, List.getLast?_append_of_ne_nil _ (List.cons_ne_nil _ _)]
  have hdefault : (':' :: url.portOf transport).getLast? = some '3' ∨
      (':' :: url.portOf transport).getLast? = some '0' := by
    unfold Url.portOf
    rw [if_neg fun h => hunfit (.inl h)]
    cases url.secure transport with
    | true => exact .inl rfl
    | false => exact .inr rfl
  have hend := getLast?_authority hunfit
  rw [hlast] at hend
  rcases hdefault with hdigit | hdigit
  · rw [hdigit] at hend
    exact absurd hend (by decide)
  · rw [hdigit] at hend
    exact absurd hend (by decide)

/-- A URL begins with no colon and slash. -/
theorem not_mark_prefix (hscheme : url.scheme = none) : ¬ [':', '/', '/'] <+: url.text := by
  have htext : url.text = url.named ++ (url.target ++ url.fragmentText) := by
    unfold Url.text Url.schemeText
    rw [hscheme]
    rfl
  have hslash : '/' ∉ url.named := notMem_of_allowed (named_allowed url) rfl
  obtain ⟨c, hc, hcolon⟩ : ∃ c ∈ url.named, c ≠ ':' := by
    have hhost : ∃ c ∈ url.host.text, c ≠ ':' := by
      cases url.host with
      | name chars nonempty allowed =>
        obtain ⟨c, rest, rfl⟩ := List.exists_cons_of_ne_nil nonempty
        refine ⟨c, List.mem_cons_self, ?_⟩
        rintro rfl
        exact absurd (allowed _ List.mem_cons_self) (by decide)
      | address chars colon allowed => exact ⟨'[', List.mem_cons_self, by decide⟩
    obtain ⟨c, hc, hcolon⟩ := hhost
    exact ⟨c, List.mem_append_right _ (List.mem_append_left _ hc), hcolon⟩
  rw [htext]
  rintro ⟨back, hback⟩
  cases hnamed : url.named with
  | nil =>
    rw [hnamed] at hc
    cases hc
  | cons first rest =>
    rw [hnamed] at hc hslash hback
    injection hback with hfirst hback
    subst hfirst
    cases rest with
    | nil =>
      obtain rfl := List.mem_singleton.mp hc
      exact hcolon rfl
    | cons second rest =>
      injection hback with hsecond _
      subst hsecond
      exact hslash (List.mem_cons_of_mem _ List.mem_cons_self)

/-- A `://` behind the authority is taken for that of a scheme. -/
theorem scheme_of_unfit (hlower : LowersAscii unicode) (h : Holds unicode it.url url.text)
    (hunfit : ¬ url.MarkFits) :
    ∃ text, it.scheme unicode = some text ∧ text.content ≠ encode url.lowerScheme := by
  obtain ⟨hscheme, hmark⟩ : url.scheme = none ∧ [':', '/', '/'] <:+: url.text := by
    unfold Url.MarkFits at hunfit
    rw [not_or, not_not, Bool.not_eq_true, Option.isSome_eq_false_iff,
      Option.isNone_iff_eq_none] at hunfit
    exact hunfit
  obtain ⟨index, hindex⟩ : ∃ index, firstIndexOf [':', '/', '/'] url.text = some index := by
    cases hfound : firstIndexOf [':', '/', '/'] url.text with
    | some index => exact ⟨index, rfl⟩
    | none =>
      rw [firstIndexOf_eq_none_iff (List.cons_ne_nil _ _)] at hfound
      obtain ⟨front, back, htext⟩ := hmark
      refine absurd ?_ (hfound front.length)
      rw [← htext, List.append_assoc, List.drop_left]
      exact List.prefix_append _ _
  have hfound := ((firstIndexOf_eq_some_iff (List.cons_ne_nil _ _)).mp hindex).1
  have hle := add_length_le_of_prefix_drop hfound (List.cons_ne_nil _ _)
  have hpos : index ≠ 0 := by
    rintro rfl
    exact not_mark_prefix hscheme hfound
  obtain ⟨part, hpart, hholds⟩ := h.slice_eq (Nat.zero_le index)
    (show index ≤ url.text.length by omega)
  rw [List.drop_zero] at hholds
  have hlow : unicode.toLowercase (url.text.take index) =
      (url.text.take index).map Char.toLower := by
    apply hlower
    intro c hc
    exact isUrlChar_lt (text_allowed url c (List.mem_of_mem_take hc))
  refine ⟨part.toLower unicode, ?_, ?_⟩
  · unfold Request.scheme
    rw [h.indexOf_eq, show "://".toList = [':', '/', '/'] from rfl, strFind_cons, hindex]
    simp only [Option.map_some, Option.bind_eq_bind, Option.bind_some]
    rw [show (0 : Int) = ((0 : Nat) : Int) from rfl, hpart]
    rfl
  · have hnone : url.lowerScheme = [] := by
      unfold Url.lowerScheme
      rw [hscheme]
      rfl
    unfold QnSlice.toLower textToLower
    rw [content_allocText, hholds.textStr_eq, hlow, hnone]
    intro hempty
    have hdecoded := congrArg lossy hempty
    rw [lossy_encode, lossy_encode, List.map_eq_nil_iff, List.take_eq_nil_iff] at hdecoded
    rcases hdecoded with hzero | hnil
    · exact hpos hzero
    · rw [hnil] at hle
      simp at hle

theorem splits_iff_of_holds {User : Type} (users : UserKeys User)
    (finish : UInt8 → Written → UInt64) (order : EntryOrder User) (debug : Bool)
    (hlower : LowersAscii unicode) (h : Holds unicode it.url url.text) :
    Splits users finish order debug unicode url it ↔ url.MarkFits ∧ url.PortFits := by
  by_cases hmark : url.MarkFits
  · obtain ⟨scheme, hscheme, hschemeHolds⟩ := scheme_eq hlower h hmark
    obtain ⟨authority, hauthority, hauthorityHolds⟩ := authority_eq h hmark
    obtain ⟨path, hpath, hpathHolds⟩ := path_eq h hmark
    obtain ⟨address, haddress, haddressHolds⟩ := address_eq hlower h hmark
    constructor
    · intro hsplits
      refine ⟨hmark, ?_⟩
      by_contra hport
      obtain ⟨text, chars, hanswer, hcontent, hsuffix⟩ := hsplits.address
      obtain rfl : address = text := Option.some.inj (haddress.symm.trans hanswer)
      have hchars := congrArg lossy (haddressHolds.content.symm.trans hcontent)
      rw [lossy_encode, lossy_encode] at hchars
      rw [← hchars] at hsuffix
      exact not_portOf_suffix hport _ hsuffix
    · rintro ⟨-, hport⟩
      exact ⟨⟨scheme, hscheme, hschemeHolds.content⟩,
        ⟨authority, hauthority, hauthorityHolds.content⟩,
        ⟨path, hpath, hpathHolds.content⟩, params_eq order debug h hmark,
        ⟨address, _, haddress, haddressHolds.content, portOf_suffix hport _⟩⟩
  · refine ⟨fun hsplits => ?_, fun hfits => absurd hfits.1 hmark⟩
    obtain ⟨text, hscheme, hcontent⟩ := hsplits.scheme
    obtain ⟨text', hscheme', hcontent'⟩ := scheme_of_unfit hlower h hmark
    obtain rfl : text = text' := Option.some.inj (hscheme.symm.trans hscheme')
    exact absurd hcontent hcontent'

theorem holds_url (hurl : WellFormed unicode it.url) (htext : it.url.content = encode url.text) :
    Holds unicode it.url url.text :=
  ⟨hurl, htext, fun c hc => isPlain_of_isUrlChar (text_allowed url c hc)⟩

/-- **Splitting a URL gives its parts back** exactly if its first `://` is that of its scheme, and
the port is named or no colon stands in `host[:port]`. -/
theorem splits_iff {User : Type} (users : UserKeys User) (finish : UInt8 → Written → UInt64)
    (order : EntryOrder User) (debug : Bool) (hlower : LowersAscii unicode)
    (hurl : WellFormed unicode it.url) (htext : it.url.content = encode url.text) :
    Splits users finish order debug unicode url it ↔ url.MarkFits ∧ url.PortFits :=
  splits_iff_of_holds users finish order debug hlower (holds_url hurl htext)

end Main

/-! ### Three URLs -/

section Runs

/-- A request for the URL, over the transport its scheme tells. -/
def requestOf (url : Url) : Request := ⟨allocText latin (encode url.text), ⟨.Plain⟩⟩

theorem lowersAscii_latin : LowersAscii latin := fun _ _ => rfl

theorem holds_requestOf (url : Url) : Holds latin (requestOf url).url url.text :=
  holds_url (wellFormed_allocText latin _) (content_allocText latin _)

def nameHost : Host :=
  .name "a.org".toList (by decide) (List.all_iff_forall_prop.mp (by decide))

/-- `https://u@a.org:81/b?c=d#e` -/
def wholeUrl : Url where
  scheme := some "https".toList
  userinfo := some "u".toList
  host := nameHost
  port := some "81".toList
  path := "/b".toList
  query := some "c=d".toList
  fragment := some "e".toList
  scheme_begins := by rintro _ ⟨⟩; exact ⟨'h', rfl, rfl⟩
  scheme_allowed := by rintro _ ⟨⟩; exact List.all_iff_forall_prop.mp (by decide)
  userinfo_allowed := by rintro _ ⟨⟩; exact List.all_iff_forall_prop.mp (by decide)
  port_allowed := by rintro _ ⟨⟩; exact List.all_iff_forall_prop.mp (by decide)
  path_begins := by rintro _ ⟨⟩; rfl
  path_allowed := List.all_iff_forall_prop.mp (by decide)
  query_allowed := by rintro _ ⟨⟩; exact List.all_iff_forall_prop.mp (by decide)
  fragment_allowed := by rintro _ ⟨⟩; exact List.all_iff_forall_prop.mp (by decide)

/-- `a.org/?u=b://c` -/
def markInQuery : Url where
  scheme := none
  userinfo := none
  host := nameHost
  port := none
  path := "/".toList
  query := some "u=b://c".toList
  fragment := none
  scheme_begins := nofun
  scheme_allowed := nofun
  userinfo_allowed := nofun
  port_allowed := nofun
  path_begins := by rintro _ ⟨⟩; rfl
  path_allowed := List.all_iff_forall_prop.mp (by decide)
  query_allowed := by rintro _ ⟨⟩; exact List.all_iff_forall_prop.mp (by decide)
  fragment_allowed := nofun

/-- `http://[::1]/` -/
def bracketedUrl : Url where
  scheme := some "http".toList
  userinfo := none
  host := .address "::1".toList (by decide) (List.all_iff_forall_prop.mp (by decide))
  port := none
  path := "/".toList
  query := none
  fragment := none
  scheme_begins := by rintro _ ⟨⟩; exact ⟨'h', rfl, rfl⟩
  scheme_allowed := by rintro _ ⟨⟩; exact List.all_iff_forall_prop.mp (by decide)
  userinfo_allowed := nofun
  port_allowed := nofun
  path_begins := by rintro _ ⟨⟩; rfl
  path_allowed := List.all_iff_forall_prop.mp (by decide)
  query_allowed := nofun
  fragment_allowed := nofun

def sameOrder : EntryOrder Nat := ⟨id, fun _ => .refl _⟩

theorem splits_wholeUrl :
    Splits parityKeys (fun _ _ => 0) sameOrder true latin wholeUrl (requestOf wholeUrl) :=
  (splits_iff parityKeys (fun _ _ => 0) sameOrder true lowersAscii_latin
    (wellFormed_allocText latin _) (content_allocText latin _)).mpr ⟨.inl rfl, .inl rfl⟩

/-- A mark in a query is taken for that of a scheme, and the colons of an address for that of a
port. -/
theorem not_splits :
    ¬ Splits parityKeys (fun _ _ => 0) sameOrder true latin markInQuery (requestOf markInQuery) ∧
      ¬ Splits parityKeys (fun _ _ => 0) sameOrder true latin bracketedUrl
        (requestOf bracketedUrl) := by
  constructor
  · rw [splits_iff_of_holds _ _ _ _ lowersAscii_latin (holds_requestOf markInQuery)]
    rintro ⟨hmark, -⟩
    exact absurd (show [':', '/', '/'] <:+: markInQuery.text by decide)
      (hmark.resolve_left (by decide))
  · rw [splits_iff_of_holds _ _ _ _ lowersAscii_latin (holds_requestOf bracketedUrl)]
    rintro ⟨-, hport⟩
    rcases hport with hnamed | hhost
    · cases hnamed
    · cases hhost.1

end Runs

end Quilon.Http
