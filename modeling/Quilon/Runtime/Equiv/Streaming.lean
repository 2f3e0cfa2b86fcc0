import Quilon.Library.GraphemeCuts
import Quilon.Runtime.Equiv.Indexing
import Quilon.Runtime.Streaming

/-!
# What a streamed file's callback is handed

The chunks are the beginning of the file, each a text between clusters of the file's (`AtCuts`): the
cluster that is held back begins where the text before it ends, whatever the reads to come bring
(`isCut_dropLast`).  One turn of the loop keeps that (`turn_spec`), and every read takes a turn
(`run_spec`).
-/

namespace Quilon.Streaming

open Utf8
open Text hiding step

variable {unicode : Unicode} {file buffer chunk : List UInt8} {chunks : List (List UInt8)}
  {failure : Option String} {atEof : Bool} {cut : Nat} {σ Num : Type*} {stream : Stream σ}

/-! ### One cut -/

theorem length_encode (text : List Char) : (encode text).length = byteLength text := by
  induction text with
  | nil => rfl
  | cons c text ih =>
    rw [encode_cons, List.length_append, length_encodeChar, ih]
    rfl

theorem getLast?_graphemeStarts (unicode : Unicode) (text : List Char) :
    (graphemeStarts unicode text).getLast?.getD 0 =
      byteLength (graphemesOf unicode text).dropLast.flatten := by
  rw [List.getLast?_eq_getElem?, length_graphemeStarts, List.dropLast_eq_take]
  by_cases hempty : (graphemesOf unicode text).length = 0
  · have hnil := List.length_eq_zero_iff.mp hempty
    have hstarts :
        (graphemeStarts unicode text).length ≤ (graphemesOf unicode text).length - 1 := by
      rw [length_graphemeStarts, hempty]
    rw [List.getElem?_eq_none hstarts, hnil]
    rfl
  · rw [getElem?_graphemeStarts (by omega)]
    rfl

theorem splitChunk_error_iff (unicode : Unicode) (buffer : List UInt8) (atEof : Bool) :
    (∃ message, splitChunk unicode buffer atEof = .error message) ↔
      Broken buffer ∨ (atEof = true ∧ EndsInside buffer) := by
  have hvalid : splitChunk unicode buffer atEof =
      if (decodePrefix buffer).2 = [] ∨ (!atEof && isIncomplete (decodePrefix buffer).2) = true then
        if atEof then .ok (byteLength (decodePrefix buffer).1)
        else .ok ((graphemeStarts unicode (decodePrefix buffer).1).getLast?.getD 0)
      else .error "core.io.@streamFile read bytes that are not valid UTF-8" := rfl
  rw [hvalid]
  cases atEof with
  | true =>
    have hbad : Broken buffer ∨ (true = true ∧ EndsInside buffer) ↔
        ¬ (decodePrefix buffer).2 = [] := by
      rw [← isSome_decode?_iff_left, not_isSome_decode?_iff]
      simp
    rw [hbad]
    by_cases hleft : (decodePrefix buffer).2 = []
    · rw [if_pos (.inl hleft), if_pos rfl]
      exact ⟨fun ⟨_, h⟩ => (by cases h), fun h => absurd hleft h⟩
    · rw [if_neg (by simpa using hleft)]
      exact ⟨fun _ => hleft, fun _ => ⟨_, rfl⟩⟩
  | false =>
    have hbad : Broken buffer ∨ (false = true ∧ EndsInside buffer) ↔
        ¬ ((decodePrefix buffer).2 = [] ∨ isIncomplete (decodePrefix buffer).2 = true) := by
      rw [← not_broken_iff, not_not]
      simp
    rw [hbad]
    by_cases hleft : (decodePrefix buffer).2 = [] ∨ isIncomplete (decodePrefix buffer).2 = true
    · rw [if_pos (by simpa using hleft)]
      exact ⟨fun ⟨_, h⟩ => (by cases h), fun h => absurd hleft h⟩
    · rw [if_neg (by simpa using hleft)]
      exact ⟨fun _ => hleft, fun _ => ⟨_, rfl⟩⟩

/-- At the end all of the buffer is cut off. -/
theorem splitChunk_at_end (h : splitChunk unicode buffer true = .ok cut) :
    (decode? buffer).isSome ∧ cut = buffer.length := by
  obtain ⟨hbytes, -⟩ := decodePrefix_spec buffer
  unfold splitChunk at h
  dsimp only at h
  split at h
  case isFalse => cases h
  case isTrue hleft =>
    have hnil : (decodePrefix buffer).2 = [] := by simpa using hleft
    rw [if_pos rfl] at h
    rw [hnil, List.append_nil] at hbytes
    refine ⟨isSome_decode?_iff_left.mpr hnil, ?_⟩
    rw [← Except.ok.inj h, ← length_encode, ← hbytes]

/-- Otherwise all but the last cluster is. -/
theorem splitChunk_before_end (h : splitChunk unicode buffer false = .ok cut) :
    ∃ text left, buffer = encode text ++ left ∧
      cut = (encode (graphemesOf unicode text).dropLast.flatten).length := by
  refine ⟨_, _, (decodePrefix_spec buffer).1, ?_⟩
  unfold splitChunk at h
  dsimp only at h
  split at h
  case isFalse => cases h
  case isTrue hleft =>
    rw [if_neg Bool.false_ne_true, getLast?_graphemeStarts] at h
    rw [← Except.ok.inj h, length_encode]

/-! ### The chunks so far -/

/-- The chunks are texts with something in them, and each ends where a cluster of the file's text
does. -/
structure AtCuts (unicode : Unicode) (file : List UInt8) (chunks : List (List UInt8)) : Prop where
  ne_nil : ∀ chunk ∈ chunks, chunk ≠ []
  valid : ∀ chunk ∈ chunks, (decode? chunk).isSome
  cuts : ∀ k ≤ chunks.length,
    IsCut unicode.classOf (lossy file) (lossy (chunks.take k).flatten).length

theorem isSome_decode?_flatten (h : ∀ chunk ∈ chunks, (decode? chunk).isSome) :
    (decode? chunks.flatten).isSome := by
  induction chunks with
  | nil =>
    rw [List.flatten_nil, decode?]
    rfl
  | cons chunk chunks ih =>
    rw [List.flatten_cons]
    exact isSome_decode?_append (h chunk List.mem_cons_self)
      (ih fun part hpart => h part (List.mem_cons_of_mem _ hpart))

theorem atCuts_nil (unicode : Unicode) (file : List UInt8) : AtCuts unicode file [] := by
  refine ⟨fun _ h => (by cases h), fun _ h => (by cases h), fun k _ => ⟨0, ?_⟩⟩
  rw [List.take_nil, List.flatten_nil, lossy_nil]
  rfl

theorem AtCuts.concat (h : AtCuts unicode file chunks) (hne : chunk ≠ [])
    (hvalid : (decode? chunk).isSome)
    (hcut : IsCut unicode.classOf (lossy file) (lossy (chunks.flatten ++ chunk)).length) :
    AtCuts unicode file (chunks ++ [chunk]) := by
  refine ⟨?_, ?_, ?_⟩
  · intro part hpart
    rcases List.mem_append.mp hpart with hpart | hpart
    · exact h.ne_nil part hpart
    · rw [List.mem_singleton.mp hpart]
      exact hne
  · intro part hpart
    rcases List.mem_append.mp hpart with hpart | hpart
    · exact h.valid part hpart
    · rw [List.mem_singleton.mp hpart]
      exact hvalid
  · intro k hk
    by_cases hle : k ≤ chunks.length
    · rw [List.take_append_of_le_length hle]
      exact h.cuts k hle
    · have hall : (chunks ++ [chunk]).length ≤ k := by
        rw [List.length_append, List.length_singleton]
        omega
      rw [List.take_of_length_le hall, List.flatten_append, List.flatten_singleton]
      exact hcut

/-- What stands behind the chunks begins a cluster of the file's text. -/
theorem AtCuts.apart (h : AtCuts unicode file chunks) {behind : List UInt8}
    (hfile : file = chunks.flatten ++ behind) :
    Apart unicode.classOf (lossy chunks.flatten) (lossy behind) := by
  have hcut := h.cuts chunks.length (Nat.le_refl _)
  rw [List.take_length, hfile, lossy_append (isSome_decode?_flatten h.valid)] at hcut
  exact isCut_append_iff.mp hcut

/-- The chunk before the cluster that is held back. -/
theorem AtCuts.hold (h : AtCuts unicode file chunks) {text : List Char} {behind : List UInt8}
    (hfile : file = chunks.flatten ++ (encode text ++ behind))
    (hne : (graphemesOf unicode text).dropLast.flatten ≠ []) :
    AtCuts unicode file (chunks ++ [encode (graphemesOf unicode text).dropLast.flatten]) := by
  have hvalid := isSome_decode?_flatten h.valid
  have hapart := h.apart hfile
  rw [lossy_encode_append] at hapart
  refine h.concat ?_ (isSome_decode?_encode _) ?_
  · intro hnil
    have hlossy := lossy_encode (graphemesOf unicode text).dropLast.flatten
    rw [hnil, lossy_nil] at hlossy
    exact hne hlossy.symm
  · rw [hfile, lossy_append hvalid, lossy_append hvalid, lossy_encode, lossy_encode_append]
    exact isCut_dropLast hapart

/-! ### A turn of the loop -/

/-- The reads give the file, or the beginning of it if one of them fails. -/
structure Reads.Of (reads : Reads) (file : List UInt8) : Prop where
  ne_nil : ∀ piece ∈ reads.pieces, piece ≠ []
  within : reads.pieces.flatten <+: file
  whole : reads.failure = none → reads.pieces.flatten = file

theorem readOnce_ok {reads reads' : Reads} {piece unread : List UInt8} (hof : reads.Of unread)
    (h : readOnce reads = .ok (piece, reads')) :
    (∃ rest, reads'.Of rest ∧ unread = piece ++ rest ∧ (piece = [] → rest = [])) ∧
      reads'.failure = reads.failure ∧
        (piece ≠ [] → reads'.pieces.length < reads.pieces.length) := by
  obtain ⟨hne, hwithin, hwhole⟩ := hof
  obtain ⟨pieces, failure⟩ := reads
  cases pieces with
  | cons first pieces =>
    obtain ⟨rfl, rfl⟩ := Prod.mk.inj (Except.ok.inj h)
    obtain ⟨behind, rfl⟩ := hwithin
    refine ⟨⟨pieces.flatten ++ behind, ⟨?_, List.prefix_append _ _, ?_⟩, ?_, ?_⟩, rfl, ?_⟩
    · intro piece hpiece
      exact hne piece (List.mem_cons_of_mem _ hpiece)
    · intro hnone
      have hall := hwhole hnone
      rw [List.self_eq_append_right.mp hall, List.append_nil]
    · rw [List.flatten_cons, List.append_assoc]
    · intro hnil
      exact absurd hnil (hne first List.mem_cons_self)
    · intro _
      exact Nat.lt_succ_self _
  | nil =>
    cases failure with
    | some error => cases h
    | none =>
      obtain ⟨rfl, rfl⟩ := Prod.mk.inj (Except.ok.inj h)
      have hnil : [] = unread := hwhole rfl
      refine ⟨⟨[], ⟨hne, List.nil_prefix, fun _ => rfl⟩, hnil.symm, fun _ => rfl⟩, rfl, ?_⟩
      intro hne
      exact absurd rfl hne

/-- What holds between two turns. -/
structure Kept (unicode : Unicode) (file : List UInt8) (failure : Option String)
    (stream : Stream σ) : Prop where
  failure_eq : stream.reads.failure = failure
  reads : ∃ unread, stream.reads.Of unread ∧ file = stream.received ++ unread
  cuts : AtCuts unicode file stream.chunks
  carried : stream.received = stream.chunks.flatten ++ stream.carry
  counted : stream.delivered = stream.chunks.flatten.length
  going : stream.failed = false
  ended : stream.ended = true → stream.received = file

theorem kept_start {reads : Reads} (hof : reads.Of file) (state : σ) :
    Kept unicode file reads.failure (Stream.start reads state) where
  failure_eq := rfl
  reads := ⟨file, hof, rfl⟩
  cuts := atCuts_nil unicode file
  carried := rfl
  counted := rfl
  going := rfl
  ended h := by cases h

theorem Kept.receive (h : Kept unicode file failure stream) {reads : Reads} {piece : List UInt8}
    (hread : readOnce stream.reads = .ok (piece, reads)) :
    Kept unicode file failure (stream.receive reads piece) ∧
      ((stream.receive reads piece).ended = false →
        reads.pieces.length < stream.reads.pieces.length) := by
  obtain ⟨unread, hof, hfile⟩ := h.reads
  obtain ⟨⟨rest, hrest, rfl, hend⟩, hsame, hlength⟩ := readOnce_ok hof hread
  refine ⟨⟨hsame.trans h.failure_eq, ⟨rest, hrest, ?_⟩, h.cuts, ?_, h.counted, h.going, ?_⟩, ?_⟩
  · rw [hfile, ← List.append_assoc]
    rfl
  · show stream.received ++ piece = stream.chunks.flatten ++ (stream.carry ++ piece)
    rw [h.carried, List.append_assoc]
  · intro hempty
    have hnil : piece = [] := List.isEmpty_iff.mp hempty
    show stream.received ++ piece = file
    rw [hfile, hend hnil, List.append_nil]
  · intro hempty
    refine hlength fun hnil => ?_
    rw [Stream.receive, hnil] at hempty
    cases hempty

/-- What is broken or unfinished is in the carry. -/
theorem Kept.carry_iff (h : Kept unicode file failure stream) :
    (Broken stream.received ↔ Broken stream.carry) ∧
      (EndsInside stream.received ↔ EndsInside stream.carry) := by
  obtain ⟨text, htext⟩ := isSome_decode?_iff.mp (isSome_decode?_flatten h.cuts.valid)
  rw [h.carried, htext]
  exact ⟨broken_encode_append, endsInside_encode_append⟩

theorem Kept.hand (h : Kept unicode file failure stream)
    (hsplit : splitChunk unicode stream.carry stream.ended = .ok cut) (hne : cut ≠ 0) (state : σ) :
    Kept unicode file failure
      (stream.hand cut (allocText unicode (stream.carry.take cut)) state) := by
  have hchunks : (stream.hand cut (allocText unicode (stream.carry.take cut)) state).chunks =
      stream.chunks ++ [stream.carry.take cut] := by
    show List.map _ (_ ++ [_]) = _
    rw [List.map_append, List.map_singleton, content_allocText]
    rfl
  obtain ⟨unread, -, hfile⟩ := h.reads
  have hcuts : AtCuts unicode file (stream.chunks ++ [stream.carry.take cut]) ∧
      cut ≤ stream.carry.length := by
    cases hended : stream.ended with
    | true =>
      rw [hended] at hsplit
      obtain ⟨hvalid, rfl⟩ := splitChunk_at_end hsplit
      rw [List.take_length]
      refine ⟨h.cuts.concat ?_ hvalid ?_, Nat.le_refl _⟩
      · exact fun hnil => hne (congrArg List.length hnil)
      · rw [← h.carried, h.ended hended]
        exact isCut_length _
    | false =>
      rw [hended] at hsplit
      obtain ⟨text, left, hcarry, hcut⟩ := splitChunk_before_end hsplit
      have hclusters : (graphemesOf unicode text).dropLast.flatten <+: text := by
        conv => rhs; rw [← flatten_graphemes unicode.classOf text]
        rw [List.dropLast_eq_take]
        exact List.IsPrefix.flatten (List.take_prefix _ _)
      obtain ⟨last, hlast⟩ := hclusters
      have hfront : stream.carry =
          encode (graphemesOf unicode text).dropLast.flatten ++ (encode last ++ left) := by
        rw [hcarry, ← List.append_assoc, ← encode_append, hlast]
      have hwhole : file = stream.chunks.flatten ++ (encode text ++ (left ++ unread)) := by
        rw [hfile, h.carried, hcarry]
        simp only [List.append_assoc]
      have htake : stream.carry.take cut = encode (graphemesOf unicode text).dropLast.flatten := by
        rw [hfront, hcut, List.take_left]
      rw [htake]
      refine ⟨h.cuts.hold hwhole ?_, ?_⟩
      · intro hnil
        rw [hnil] at hcut
        exact hne hcut
      · rw [hfront, hcut, List.length_append]
        exact Nat.le_add_right _ _
  obtain ⟨hcuts, hle⟩ := hcuts
  refine ⟨h.failure_eq, h.reads, hchunks ▸ hcuts, ?_, ?_, h.going, h.ended⟩
  · rw [hchunks, List.flatten_append, List.flatten_singleton, List.append_assoc]
    show stream.received = stream.chunks.flatten ++ (stream.carry.take cut ++ stream.carry.drop cut)
    rw [List.take_append_drop]
    exact h.carried
  · rw [hchunks, List.flatten_append, List.flatten_singleton, List.length_append, List.length_take,
      Nat.min_eq_left hle, ← h.counted]
    rfl

/-- What holds when the loop is left. -/
structure Delivers (unicode : Unicode) (asF64 : Nat → Num) (onChunk : QnSlice → σ → Bool × σ)
    (file : List UInt8) (failure : Option String) (answer : Answer Num) (stream : Stream σ) :
    Prop where
  cuts : AtCuts unicode file stream.chunks
  within : stream.chunks.flatten <+: stream.received
  read : stream.received <+: file
  ended : stream.ended = true → stream.received = file
  failed : stream.failed = true → failure ≠ none
  counted : ∀ n, answer = .okNum n → n = asF64 stream.chunks.flatten.length
  whole : ∀ n, answer = .okNum n → (∀ chunk state, (onChunk chunk state).1 = true) →
    stream.chunks.flatten = file
  notOk_iff : (∃ message, answer = .notOk message) ↔ stream.failed = true ∨
    Broken stream.received ∨ (stream.ended = true ∧ EndsInside stream.received)

variable {asF64 : Nat → Num} {path : String} {onChunk : QnSlice → σ → Bool × σ}

/-- An answer of the number of bytes handed over. -/
theorem Kept.okNum (h : Kept unicode file failure stream)
    (hsound : ¬ (Broken stream.received ∨ (stream.ended = true ∧ EndsInside stream.received)))
    (hwhole : (∀ chunk state, (onChunk chunk state).1 = true) → stream.chunks.flatten = file) :
    Delivers unicode asF64 onChunk file failure (.okNum (asF64 stream.delivered)) stream := by
  obtain ⟨unread, -, hfile⟩ := h.reads
  refine ⟨h.cuts, ⟨_, h.carried.symm⟩, ⟨unread, hfile.symm⟩, h.ended, ?_, ?_,
    fun _ _ => hwhole, ?_⟩
  · rw [h.going]
    exact fun hfailed => (by cases hfailed)
  · intro n hn
    rw [← h.counted, Answer.okNum.inj hn]
  · rw [h.going]
    refine ⟨fun ⟨_, hmessage⟩ => (by cases hmessage), ?_⟩
    rintro (hfailed | hbad)
    · cases hfailed
    · exact absurd hbad hsound

theorem Kept.notOk (h : Kept unicode file failure stream)
    (hbad : Broken stream.received ∨ (stream.ended = true ∧ EndsInside stream.received))
    (message : String) : Delivers unicode asF64 onChunk file failure (.notOk message) stream := by
  obtain ⟨unread, -, hfile⟩ := h.reads
  refine ⟨h.cuts, ⟨_, h.carried.symm⟩, ⟨unread, hfile.symm⟩, h.ended, ?_, ?_, ?_, ?_⟩
  · rw [h.going]
    exact fun hfailed => (by cases hfailed)
  · intro n hn
    cases hn
  · intro n hn
    cases hn
  · exact ⟨fun _ => .inr hbad, fun _ => ⟨message, rfl⟩⟩

/-- A turn leaves the loop with what the file delivers, or reads a piece of it. -/
theorem turn_spec (asF64 : Nat → Num) (path : String) (onChunk : QnSlice → σ → Bool × σ)
    (h : Kept unicode file failure stream) :
    (∃ answer after, turn unicode asF64 path onChunk stream = (some answer, after) ∧
      Delivers unicode asF64 onChunk file failure answer after) ∨
    (∃ after, turn unicode asF64 path onChunk stream = (none, after) ∧
      Kept unicode file failure after ∧
      after.reads.pieces.length < stream.reads.pieces.length) := by
  unfold turn
  cases hread : readOnce stream.reads with
  | error error =>
    obtain ⟨unread, -, hfile⟩ := h.reads
    refine .inl ⟨_, _, rfl, h.cuts, ⟨_, h.carried.symm⟩, ⟨unread, hfile.symm⟩, h.ended, ?_, ?_, ?_,
      ?_⟩
    · rw [← h.failure_eq]
      intro _ hnone
      rw [readOnce, hnone] at hread
      cases hpieces : stream.reads.pieces with
      | nil =>
        rw [hpieces] at hread
        cases hread
      | cons piece pieces =>
        rw [hpieces] at hread
        cases hread
    · intro n hn
      cases hn
    · intro n hn
      cases hn
    · exact ⟨fun _ => .inl rfl, fun _ => ⟨_, rfl⟩⟩
  | ok next =>
    obtain ⟨piece, reads⟩ := next
    obtain ⟨hkept, hshorter⟩ := h.receive hread
    have hreads : (stream.receive reads piece).reads = reads := rfl
    dsimp only
    generalize stream.receive reads piece = stream' at hkept hshorter hreads
    obtain ⟨hbroken, hinside⟩ := hkept.carry_iff
    by_cases hdone : (stream'.ended && stream'.carry.isEmpty) = true
    · rw [if_pos hdone]
      obtain ⟨hended, hempty⟩ := Bool.and_eq_true_iff.mp hdone
      have hcarried := hkept.carried
      rw [List.isEmpty_iff.mp hempty, List.append_nil] at hcarried
      refine .inl ⟨_, _, rfl, hkept.okNum ?_ ?_⟩
      · have hvalid := isSome_decode?_flatten hkept.cuts.valid
        rw [← hcarried] at hvalid
        rintro (hbad | ⟨-, hbad⟩)
        · exact not_isSome_decode?_iff.mpr (.inl hbad) hvalid
        · exact not_isSome_decode?_iff.mpr (.inr hbad) hvalid
      · intro _
        rw [← hcarried, hkept.ended hended]
    · rw [if_neg hdone]
      have herror := splitChunk_error_iff unicode stream'.carry stream'.ended
      rw [← hbroken, ← hinside] at herror
      cases hsplit : splitChunk unicode stream'.carry stream'.ended with
      | error message => exact .inl ⟨_, _, rfl, hkept.notOk (herror.mp ⟨_, hsplit⟩) message⟩
      | ok cut =>
        have hsound : ¬ (Broken stream'.received ∨
            (stream'.ended = true ∧ EndsInside stream'.received)) := by
          intro hbad
          obtain ⟨message, hmessage⟩ := herror.mpr hbad
          rw [hsplit] at hmessage
          cases hmessage
        dsimp only
        by_cases hcut : cut = 0
        · rw [if_pos hcut]
          refine .inr ⟨_, rfl, hkept, ?_⟩
          rw [hreads]
          refine hshorter (Bool.eq_false_iff.mpr fun hended => hdone ?_)
          rw [hended] at hsplit
          have hlength := (splitChunk_at_end hsplit).2
          rw [hended, Bool.true_and, List.isEmpty_iff, ← List.length_eq_zero_iff]
          omega
        · rw [if_neg hcut]
          generalize hcall :
            onChunk (allocText unicode (stream'.carry.take cut)) stream'.state = call
          have hhand := hkept.hand hsplit hcut call.2
          rw [Stream.hand_ended]
          by_cases hleave : (stream'.ended || !call.1) = true
          · rw [if_pos hleave]
            refine .inl ⟨_, _, rfl, hhand.okNum hsound ?_⟩
            intro hnever
            -- the callback did not stop, so the file has ended and its last chunk is handed over
            have hgoing : call.1 = true := by
              rw [← hcall]
              exact hnever _ _
            have hend : stream'.ended = true := by
              rw [hgoing] at hleave
              simpa using hleave
            have hall := hhand.carried
            rw [hend] at hsplit
            have hdrained : (stream'.hand cut (allocText unicode (stream'.carry.take cut))
                call.2).carry = [] := by
              show stream'.carry.drop cut = []
              rw [(splitChunk_at_end hsplit).2, List.drop_length]
            rw [hdrained, List.append_nil] at hall
            rw [← hall]
            exact hkept.ended hend
          · rw [if_neg hleave]
            refine .inr ⟨_, rfl, hhand, ?_⟩
            show stream'.reads.pieces.length < _
            rw [hreads]
            refine hshorter (Bool.eq_false_iff.mpr fun hended => hleave ?_)
            rw [hended, Bool.true_or]

/-- Enough turns for what the file is read in. -/
theorem run_spec (asF64 : Nat → Num) (path : String) (onChunk : QnSlice → σ → Bool × σ)
    (h : Kept unicode file failure stream) :
    ∃ answer after, Delivers unicode asF64 onChunk file failure answer after ∧
      ∀ turns, stream.reads.pieces.length < turns →
        run unicode asF64 path onChunk turns stream = some (answer, after) := by
  induction hlength : stream.reads.pieces.length using Nat.strong_induction_on
    generalizing stream with
  | _ length ih =>
    rcases turn_spec asF64 path onChunk h with ⟨answer, after, hturn, hdelivers⟩ |
      ⟨next, hturn, hkept, hshorter⟩
    · refine ⟨answer, after, hdelivers, fun turns hturns => ?_⟩
      obtain ⟨turns, rfl⟩ := Nat.exists_eq_add_of_lt hturns
      rw [run, hturn]
    · obtain ⟨answer, after, hdelivers, hrun⟩ := ih _ (hlength ▸ hshorter) hkept rfl
      refine ⟨answer, after, hdelivers, fun turns hturns => ?_⟩
      obtain ⟨turns, rfl⟩ := Nat.exists_eq_add_of_lt hturns
      rw [run, hturn]
      exact hrun _ (by omega)

/-! ### The whole call -/

/-- The size is a positive whole number, its buffer can be allocated, and the file opens. -/
def Accepted (size : ChunkSize) (reserves : Nat → Bool) (opened : Except String Reads) : Prop :=
  ∃ n reads, size.whole = some n ∧ 0 < n ∧ reserves (min n.toNat usizeMax) = true ∧
    opened = .ok reads

variable {size : ChunkSize} {reserves : Nat → Bool} {opened : Except String Reads}

theorem bufferSize_eq_some_iff {chunkSize : Nat} : bufferSize size = some chunkSize ↔
    ∃ n, size.whole = some n ∧ 0 < n ∧ min n.toNat usizeMax = chunkSize := by
  unfold bufferSize
  cases size.whole with
  | none => simp
  | some n =>
    by_cases hn : n ≤ 0
    · simp [hn, Int.not_lt.mpr hn]
    · simp [hn, Int.not_le.mp hn]

theorem streamFile_accepted {reads : Reads} (haccepted : Accepted size reserves opened)
    (hopened : opened = .ok reads) (unicode : Unicode) (asF64 : Nat → Num) (path : String)
    (onChunk : QnSlice → σ → Bool × σ) (state : σ) (turns : Nat) :
    streamFile unicode asF64 path onChunk size reserves opened state turns =
      run unicode asF64 path onChunk turns (Stream.start reads state) := by
  obtain ⟨n, -, hwhole, hpos, hreserves, -⟩ := haccepted
  have hbuffer := bufferSize_eq_some_iff.mpr ⟨n, hwhole, hpos, rfl⟩
  unfold streamFile
  rw [hbuffer, hopened]
  dsimp only
  rw [hreserves, if_neg Bool.false_ne_true.symm]

/-- What is not accepted is answered at once. -/
theorem streamFile_refused (hrefused : ¬ Accepted size reserves opened) (unicode : Unicode)
    (asF64 : Nat → Num) (path : String) (onChunk : QnSlice → σ → Bool × σ) (state : σ) :
    ∃ message, ∀ turns, streamFile unicode asF64 path onChunk size reserves opened state turns =
      some (.notOk message, Stream.start ⟨[], none⟩ state) := by
  unfold streamFile
  dsimp only
  cases hbuffer : bufferSize size with
  | none => exact ⟨_, fun _ => rfl⟩
  | some chunkSize =>
    dsimp only
    by_cases hreserves : reserves chunkSize = false
    · exact ⟨_, fun _ => if_pos hreserves⟩
    · cases opened with
      | error error => exact ⟨_, fun _ => if_neg hreserves⟩
      | ok reads =>
        obtain ⟨n, hwhole, hpos, rfl⟩ := bufferSize_eq_some_iff.mp hbuffer
        exact absurd ⟨n, reads, hwhole, hpos, (Bool.not_eq_false _).mp hreserves, rfl⟩ hrefused

/-- Whatever the reads bring and the callback does, the call ends, what was handed over are texts
between clusters of the file's, side by side from its beginning, and the answer is their number of
bytes, unless the call was refused, a read failed, or the bytes read are not UTF-8. -/
theorem file_streams (unicode : Unicode) (asF64 : Nat → Num) (path : String)
    (onChunk : QnSlice → σ → Bool × σ) (size : ChunkSize) (reserves : Nat → Bool)
    (opened : Except String Reads) (state : σ) (file : List UInt8)
    (hreads : ∀ reads, opened = .ok reads → reads.Of file) :
    ∃ answer stream,
      (∃ enough, ∀ turns, enough ≤ turns →
        streamFile unicode asF64 path onChunk size reserves opened state turns =
          some (answer, stream)) ∧
      AtCuts unicode file stream.chunks ∧
      stream.chunks.flatten <+: stream.received ∧ stream.received <+: file ∧
      (∀ n, answer = .okNum n → n = asF64 stream.chunks.flatten.length) ∧
      ((∃ message, answer = .notOk message) ↔
        ¬ Accepted size reserves opened ∨ stream.failed = true ∨ Broken stream.received ∨
          (stream.ended = true ∧ EndsInside file)) ∧
      (stream.failed = true → ∃ reads, opened = .ok reads ∧ reads.failure ≠ none) ∧
      (Accepted size reserves opened → (∀ reads, opened = .ok reads → reads.failure = none) →
        (decode? file).isSome → (∀ chunk state, (onChunk chunk state).1 = true) →
          stream.chunks.flatten = file) := by
  by_cases haccepted : Accepted size reserves opened
  · obtain ⟨-, reads, -, -, -, hopened⟩ := id haccepted
    have hkept := @kept_start unicode file _ reads (hreads reads hopened) state
    obtain ⟨answer, stream, hdelivers, hrun⟩ := run_spec asF64 path onChunk hkept
    have hinside : (stream.ended = true ∧ EndsInside stream.received) ↔
        (stream.ended = true ∧ EndsInside file) := by
      refine and_congr_right fun hended => ?_
      rw [hdelivers.ended hended]
    have hnotOk := hdelivers.notOk_iff
    rw [hinside] at hnotOk
    refine ⟨answer, stream, ⟨reads.pieces.length + 1, fun turns hturns => ?_⟩, hdelivers.cuts,
      hdelivers.within, hdelivers.read, hdelivers.counted, ?_, ?_, ?_⟩
    · rw [streamFile_accepted haccepted hopened]
      exact hrun turns hturns
    · rw [hnotOk]
      exact ⟨.inr, fun h => h.resolve_left (not_not.mpr haccepted)⟩
    · exact fun hfailed => ⟨reads, hopened, hdelivers.failed hfailed⟩
    · intro _ hnone hvalid hnever
      cases answer with
      | okNum n => exact hdelivers.whole n rfl hnever
      | notOk message =>
        obtain ⟨behind, rfl⟩ := hdelivers.read
        obtain ⟨text, htext⟩ := Option.isSome_iff_exists.mp hvalid
        rcases hnotOk.mp ⟨message, rfl⟩ with hfailed | hbroken | ⟨-, hfile⟩
        · exact absurd (hnone reads hopened) (hdelivers.failed hfailed)
        · rw [hbroken behind] at htext
          cases htext
        · exact absurd hvalid (not_isSome_decode?_iff.mpr (.inr hfile))
  · obtain ⟨message, hrefused⟩ :=
      streamFile_refused haccepted unicode asF64 path onChunk state
    refine ⟨_, _, ⟨0, fun turns _ => hrefused turns⟩, atCuts_nil unicode file, List.nil_prefix,
      List.nil_prefix, ?_, ?_, ?_, ?_⟩
    · intro n hn
      cases hn
    · exact ⟨fun _ => .inl haccepted, fun _ => ⟨message, rfl⟩⟩
    · intro hfailed
      cases hfailed
    · exact fun h => absurd h haccepted

/-- `hi` in two reads, each of a byte. -/
def hiReads : Reads := ⟨[[104], [105]], none⟩

theorem of_hiReads : hiReads.Of [104, 105] :=
  ⟨by decide, List.prefix_refl _, fun _ => rfl⟩

theorem file_streams_hi :
    ∃ answer stream,
      (∃ enough, ∀ turns, enough ≤ turns →
        streamFile latin id "hi.txt" (fun _ (_ : Unit) => (true, ())) ⟨"1", some 1⟩
          (fun _ => true) (.ok hiReads) () turns = some (answer, stream)) ∧
      ((∃ message, answer = .notOk message) ↔
        stream.failed = true ∨ Broken stream.received ∨
          (stream.ended = true ∧ EndsInside [104, 105])) ∧
      stream.chunks.flatten = [104, 105] := by
  have haccepted : Accepted ⟨"1", some 1⟩ (fun _ => true) (.ok hiReads) :=
    ⟨1, hiReads, rfl, Int.one_pos, rfl, rfl⟩
  have hvalid : (decode? [104, 105]).isSome := isSome_decode?_encode ['h', 'i']
  obtain ⟨answer, stream, hends, -, -, -, -, hnotOk, -, hwhole⟩ :=
    file_streams latin id "hi.txt" (fun _ (_ : Unit) => (true, ())) ⟨"1", some 1⟩
      (fun _ => true) (.ok hiReads) () [104, 105] fun reads hreads =>
        Except.ok.inj hreads ▸ of_hiReads
  refine ⟨answer, stream, hends, ?_, ?_⟩
  · rw [hnotOk]
    exact ⟨fun h => h.resolve_left (not_not.mpr haccepted), .inr⟩
  · exact hwhole haccepted (fun reads hreads => Except.ok.inj hreads ▸ rfl) hvalid
      fun _ _ => rfl

/-- A chunk size of zero is refused, though no bytes were read. -/
theorem streamFile_zero :
    ¬ ∀ (size : ChunkSize) (turns : Nat) (answer : Answer Nat) (stream : Stream Unit),
      streamFile latin id "hi.txt" (fun _ (_ : Unit) => (true, ())) size (fun _ => true)
        (.ok hiReads) () turns = some (answer, stream) →
      ((∃ message, answer = .notOk message) ↔
        Broken stream.received ∨ (stream.ended = true ∧ EndsInside [104, 105])) := by
  intro h
  have hzero := (h ⟨"0", some 0⟩ 1 _ _ rfl).mp ⟨_, rfl⟩
  rcases hzero with hbroken | ⟨hended, -⟩
  · have hnone := hbroken []
    have hsome := decode?_encode []
    rw [List.append_nil] at hnone
    rw [show encode [] = Stream.received (Stream.start ⟨[], none⟩ ()) from rfl] at hsome
    rw [hnone] at hsome
    cases hsome
  · cases hended

end Quilon.Streaming
