import Mathlib.Data.Rat.Floor
import Quilon.Codegen.Ranges
import Quilon.Runtime.Framing
import Quilon.Runtime.Streaming

/-!
# Numbers handed to the runtime

Where a `Num` of the program becomes a time, a size, an index, a count or an exit code: `__sleep`,
`bounded_duration` and what waits on it, `stream_file`, `__http_body_progress`, `__alloc_array` and
`check_range_endpoint` of `quilon-rt/src`, `saturating_int` and `index_in_bounds` of the generator,
and `repeat` of `corelib/text.qn`.  An idle timeout of `http.@serve` is handed to
`Connection.@read`.

What would end the process without a report is `none`: a panic, a sum that wraps, a poison value, an
access outside a block.  Durations and readings of the clock are numbers of nanoseconds.
-/

namespace Quilon.Ranges.Num

/-- `value as i64` without its bounds. -/
def truncated (value : Rat) : Int := value.num.tdiv value.den

/-- `< bound` -/
def below (bound : Rat) : Num → Bool
  | .finite value => value < bound
  | .negativeZero => 0 < bound
  | .infinite negative => negative
  | .nan => false

/-- `> bound` -/
def above (bound : Rat) : Num → Bool
  | .finite value => bound < value
  | .negativeZero => bound < 0
  | .infinite negative => !negative
  | .nan => false

/-- `value as usize`, which saturates. -/
def asUsize : Num → Nat
  | .finite value => min (truncated value).toNat (2 ^ 64 - 1)
  | .negativeZero => 0
  | .infinite negative => if negative then 0 else 2 ^ 64 - 1
  | .nan => 0

/-- `f64::clamp` -/
def clampTo (low high : Rat) (x : Num) : Num :=
  if x.below low then .finite low else if x.above high then .finite high else x

/-- `value.max(0.0)`, which is not NaN. -/
def max0 (x : Num) : Num :=
  if x = .nan then .finite 0 else if x.below 0 then .finite 0 else x

/-- `fptosi`, which gives poison for what does not fit. -/
def fptosi (bits : Nat) : Num → Option Int
  | .finite value =>
    if -2 ^ (bits - 1) ≤ truncated value ∧ truncated value < 2 ^ (bits - 1) then
      some (truncated value)
    else none
  | .negativeZero => some 0
  | .infinite _ => none
  | .nan => none

/-- `saturating_int` -/
def saturatingInt (bits : Nat) (low high : Rat) (x : Num) : Option Int :=
  let clampedHi := if x.above high then .finite high else x
  fptosi bits (if x.below low || x = .nan then .finite low else clampedHi)

def saturatingI64 (x : Num) : Option Int := saturatingInt 64 (-2 ^ 63) 9223372036854774784 x

def saturatingI32 (x : Num) : Option Int := saturatingInt 32 (-2 ^ 31) (2 ^ 31 - 1) x

end Quilon.Ranges.Num

namespace Quilon.Ranges.Numbers

open Text Http Streaming

/-- How a call of the runtime ends. -/
inductive Outcome (ρ : Type) where
  | performed (result : ρ)
  /-- a report on standard error, under its code, then exit status 5 -/
  | reported (code : Option Nat) (message : String)
  /-- the process ends without a report, or the call has not ended in time -/
  | lost

namespace Outcome

variable {ρ ρ' : Type}

def ofOption : Option ρ → Outcome ρ
  | some result => .performed result
  | none => .lost

def bind (outcome : Outcome ρ) (next : ρ → Outcome ρ') : Outcome ρ' :=
  match outcome with
  | .performed result => next result
  | .reported code message => .reported code message
  | .lost => .lost

def map (f : ρ → ρ') (outcome : Outcome ρ) : Outcome ρ' :=
  outcome.bind fun result => .performed (f result)

end Outcome

/-! ### Times -/

def nanosPerSec : Nat := 10 ^ 9

/-- To nearest, ties to even. -/
def roundEven (x : Rat) : Int :=
  if x - ⌊x⌋ < 1 / 2 ∨ (x - ⌊x⌋ = 1 / 2 ∧ ⌊x⌋ % 2 = 0) then ⌊x⌋ else ⌊x⌋ + 1

/-- `Duration::from_secs_f64` -/
def fromSecsF64 : Num → Option Nat
  | .finite value =>
    if value < 0 then none
    else if (roundEven (value * nanosPerSec)).toNat < 2 ^ 64 * nanosPerSec then
      some (roundEven (value * nanosPerSec)).toNat
    else none
  | .negativeZero => some 0
  | .infinite _ => none
  | .nan => none

/-- `Instant + Duration`; the seconds of an `Instant` are an `i64`. -/
def after (now duration : Nat) : Option Nat :=
  if now + duration < 2 ^ 63 * nanosPerSec then some (now + duration) else none

/-- `scheduler::sleep`, up to where the fiber is parked: when it is to be woken. -/
def sleep (now duration : Nat) : Option Nat := after now duration

/-- `__sleep` -/
def sleepSeconds (now : Nat) (seconds : Num) : Option Nat :=
  (fromSecsF64 seconds.max0).bind (sleep now)

def maxDeadlineSeconds : Rat := 1000000000

/-- What `bounded_duration` makes of its argument. -/
def bounded : Num → Num
  | .nan => .finite 0
  | .infinite true => .finite 0
  | .infinite false => .finite maxDeadlineSeconds
  | .finite value => Num.clampTo 0 maxDeadlineSeconds (.finite value)
  | .negativeZero => Num.clampTo 0 maxDeadlineSeconds .negativeZero

/-- `bounded_duration` -/
def boundedDuration (seconds : Num) : Option Nat := fromSecsF64 (bounded seconds)

/-- `Instant::now() + bounded_duration(seconds)` -/
def boundedDeadline (now : Nat) (seconds : Num) : Option Nat :=
  (boundedDuration seconds).bind (after now)

/-- `TICK` -/
def tick : Nat := 20 * 10 ^ 6

/-- What the turns of `wait_for_in_flight` meet: how many handlers are running, and what the clock
shows as a turn looks at it and as it goes to sleep. -/
structure Wait where
  inFlight : Nat → Nat
  looked : Nat → Nat
  parked : Nat → Nat
  looked_le : ∀ k, looked k ≤ parked k
  /-- a fiber is not woken before its time -/
  woken : ∀ k, parked k + tick ≤ looked (k + 1)
  /-- a fiber is not held up for billions of years -/
  prompt : ∀ k, looked k < 2 ^ 61 * nanosPerSec → parked k < 2 ^ 62 * nanosPerSec

/-- The loop of `wait_for_in_flight` from turn `k` on, for so many turns: the turn it ends with. -/
def waitTurns (wait : Wait) (floor deadline : Nat) : Nat → Nat → Option Nat
  | 0, _ => none
  | turns + 1, k =>
    if floor < wait.inFlight k ∧ wait.looked k < deadline then
      (sleep (wait.parked k) tick).bind fun _ => waitTurns wait floor deadline turns (k + 1)
    else some k

def waitForInFlight (wait : Wait) (floor now : Nat) (seconds : Num) (turns : Nat) : Option Nat :=
  (boundedDeadline now seconds).bind fun deadline => waitTurns wait floor deadline turns 0

/-! ### Memory -/

/-- More bytes than a process can address. -/
def addressSpace : Nat := 2 ^ 52

/-- Where the calls run. -/
structure Machine where
  /-- the monotonic clock -/
  now : Nat
  /-- the machine is not billions of years up -/
  young : now < 2 ^ 60 * nanosPerSec
  /-- the blocks `GC_malloc` finds room for -/
  grants : Nat → Bool
  grants_lt : ∀ bytes, grants bytes = true → bytes < addressSpace
  /-- the buffers `try_reserve_exact` finds room for -/
  reserves : Nat → Bool
  formatNum : Num → String
  unicode : Unicode

section Memory

variable (machine : Machine)

def outOfMemory {ρ : Type} (bytes : Nat) : Outcome ρ :=
  .reported none ("out of memory: cannot allocate " ++ toString bytes ++ " bytes\n")

/-- `__alloc` and `__alloc_atomic` -/
def alloc (size : Int) : Outcome Unit :=
  if size < 0 then .reported (some 504) ("invalid allocation: " ++ toString size ++ " bytes")
  else if machine.grants (max 1 size.toNat) then .performed ()
  else outOfMemory (max 1 size.toNat)

/-- `__alloc_array` -/
def allocArray (count elemSize : Int) : Outcome Unit :=
  if count < 0 ∨ elemSize < 0 then
    .reported (some 504) ("invalid allocation: " ++ toString count ++ " elements of " ++
      toString elemSize ++ " bytes each")
  else if count * elemSize < 2 ^ 63 then alloc machine (count * elemSize)
  else
    .reported (some 504) ("allocation too large: " ++ toString count ++ " elements of " ++
      toString elemSize ++ " bytes each exceeds the largest representable size")

/-- `+` on `i64`, of sizes -/
def addI64 (a b : Nat) : Option Nat := if a + b < 2 ^ 63 then some (a + b) else none

def textHeaderBytes : Nat := 16

/-- The block `alloc_text_buffer` asks for: a header, the bytes and a NUL. -/
def textBufferBytes (len : Nat) : Option Nat :=
  (addI64 textHeaderBytes len).bind fun bytes => addI64 bytes 1

/-- `__text_concat`, with its allocation. -/
def concat (left right : QnSlice) : Outcome QnSlice :=
  (Outcome.ofOption (addI64 left.content.length right.content.length)).bind fun total =>
    if total = 0 then .performed QnSlice.empty
    else
      (Outcome.ofOption (textBufferBytes total)).bind fun bytes =>
        (alloc machine bytes).bind fun _ => .performed (textConcat machine.unicode left right)

end Memory

/-! ### `repeat` -/

section Repeat

variable (machine : Machine)

/-- `count % 2`.  Halving an even number and taking one from an odd one are exact in doubles, where
all numbers from `2^53` on are even. -/
def rem2 (count : Rat) : Rat := count - 2 * Num.truncated (count / 2)

def copies (text : QnSlice) : Nat → Rat → Outcome QnSlice
  | 0, _ => .lost
  | turns + 1, count =>
    if count = 0 then .performed QnSlice.empty
    else if rem2 count = 1 then
      (copies text turns (count - 1)).bind fun rest => concat machine text rest
    else
      (copies text turns (count / 2)).bind fun half => concat machine half half

def repeatRefused : Outcome QnSlice :=
  .reported none "repeat: `count` must be a whole number of 0 or more"

/-- The remainder of an infinity, and of NaN, is NaN. -/
def repeat_ (text : QnSlice) (count : Num) (turns : Nat) : Outcome QnSlice :=
  match count with
  | .finite value =>
    if 0 ≤ value ∧ (Num.finite value).hasFraction = false then copies machine text turns value
    else repeatRefused
  | .negativeZero => copies machine text turns 0
  | .infinite _ => repeatRefused
  | .nan => repeatRefused

end Repeat

/-! ### Arrays, ranges and bodies -/

section Calls

variable {α σ : Type} (machine : Machine)

/-- `index_in_bounds` -/
def indexInBounds (index : Num) (size : Nat) : Bool :=
  match Num.ofI64 (BitVec.ofNat 64 size) with
  | .finite bound => decide (index ≠ .nan) && !index.below 0 && index.below bound
  | _ => false

/-- The element behind a valid index. -/
def elementAt (array : List α) (index : Num) : Option α :=
  (index.fptosi 64).bind fun i => if 0 ≤ i then array[i.toNat]? else none

/-- `array[index]`, or `__index_fail` -/
def arrayIndex (array : List α) (index : Num) : Outcome α :=
  if indexInBounds index array.length then Outcome.ofOption (elementAt array index)
  else
    .reported (some 501) ("index " ++ machine.formatNum index ++
      " out of bounds for an array of size " ++ toString array.length)

/-- `array.at(index)`: `NotOk` is `none`. -/
def arrayAt (array : List α) (index : Num) : Outcome (Option α) :=
  if indexInBounds index array.length then (Outcome.ofOption (elementAt array index)).map some
  else .performed none

/-- `__range_endpoint` -/
def endpoint (value : Num) : Outcome (BitVec 64) :=
  match checkRangeEndpoint machine.formatNum value with
  | .ok endpoint => .performed endpoint
  | .error message => .reported (some 502) message

/-- The range as an array: its bounds and the block for its elements. -/
def range (lo hi : Num) : Outcome Bounds :=
  (endpoint machine lo).bind fun lo =>
    (endpoint machine hi).bind fun hi =>
      (allocArray machine (boundsOf lo hi).count.toInt NUM_SIZE).map fun _ => boundsOf lo hi

/-- `body_progress`, with the ranges it cuts. -/
def bodyProgressTurns (maxBodySize : Nat) (raw : List UInt8)
    (transferEncoding contentLength : List Char) (turns : Nat) : Option BodyProgress :=
  match findBlankLine raw with
  | none => some .incomplete
  | some (at_, spellingLen) => do
    let start ← addUsize at_ spellingLen
    let body ← byteRange raw start raw.length
    if isChunked transferEncoding then dechunkTurns maxBodySize turns [] body
    else if !transferEncoding.isEmpty then return .malformed "unsupported Transfer-Encoding"
    else
      match fromStrRadix 10 (trim contentLength) with
      | some expected =>
        if maxBodySize < expected then return .tooLarge
        else if expected ≤ body.length then return .complete (← byteRange body 0 expected)
        else return .incomplete
      | none => return .malformed "malformed Content-Length"

/-- The size `@streamFile` is given, as `stream_file` looks at it. -/
def chunkSizeOf (chunkSize : Num) : ChunkSize where
  shown := machine.formatNum chunkSize
  whole :=
    match chunkSize with
    | .finite value => if (Num.finite value).hasFraction then none else some (Num.truncated value)
    | .negativeZero => some 0
    | .infinite _ => none
    | .nan => none

/-- `delivered as f64` -/
def asF64 (delivered : Nat) : Num := Num.ofI64 (BitVec.ofNat 64 delivered)

/-! ### The calls -/

/-- A call that hands over a number, with what else it reads.  Texts, bodies and arrays are in
memory. -/
inductive Entry (α σ : Type) where
  /-- `@sleep(seconds)` -/
  | sleep (seconds : Num)
  /-- `Server.kill(seconds)`, as far as it waits -/
  | serverKill (seconds : Num) (floor : Nat) (wait : Wait)
  /-- `Connection.@read(seconds)`, up to where the read is launched -/
  | connectionRead (seconds : Num)
  /-- the handshake of a `TLS` listener, up to where it begins -/
  | tlsHandshake (seconds : Num)
  /-- `maxBodySize` of `http.@serve`, where a body is measured by it -/
  | bodyProgress (raw : List UInt8) (held : raw.length < addressSpace)
      (transferEncoding contentLength : List Char) (maxBodySize : Num)
  /-- `@streamFile(path, chunkSize, onChunk)`; a read that brings nothing is the last one -/
  | streamFile (path : String) (opened : Except String Reads)
      (ends : ∀ reads, opened = .ok reads → [] ∉ reads.pieces) (chunkSize : Num)
      (onChunk : QnSlice → σ → Bool × σ) (state : σ)
  | textSlice (text : QnSlice) (held : text.content.length < addressSpace) (start stop : Num)
  | textAt (text : QnSlice) (held : text.content.length < addressSpace) (index : Num)
  | arrayIndex (array : List α) (held : array.length < addressSpace) (index : Num)
  | arrayAt (array : List α) (held : array.length < addressSpace) (index : Num)
  | repeat_ (text : QnSlice) (held : text.content.length < addressSpace) (count : Num)
  /-- `lo <- hi` -/
  | range (lo hi : Num)
  /-- `__exit(code)`, and the result of the entry point -/
  | exit (code : Num)

/-- What a call has come to. -/
inductive Result (α : Type) where
  /-- parked, to be woken at this reading of the clock at the latest -/
  | waiting (deadline : Nat)
  /-- waited, until this turn of the loop -/
  | waited (turn : Nat)
  | body (progress : BodyProgress)
  | file (answer : Answer Num)
  | text (text : QnSlice)
  | element (element : α)
  | found (element : Option α)
  | bounds (bounds : Bounds)
  | exited (code : Int)

/-- A call, its loops being given so many turns. -/
def run (turns : Nat) : Entry α σ → Outcome (Result α)
  | .sleep seconds => (Outcome.ofOption (sleepSeconds machine.now seconds)).map .waiting
  | .serverKill seconds floor wait =>
    (Outcome.ofOption (waitForInFlight wait floor machine.now seconds turns)).map .waited
  | .connectionRead seconds => (Outcome.ofOption (boundedDeadline machine.now seconds)).map .waiting
  | .tlsHandshake seconds => (Outcome.ofOption (boundedDeadline machine.now seconds)).map .waiting
  | .bodyProgress raw _ transferEncoding contentLength maxBodySize =>
    (Outcome.ofOption
      (bodyProgressTurns maxBodySize.asUsize raw transferEncoding contentLength turns)).map .body
  | .streamFile path opened _ chunkSize onChunk state =>
    (Outcome.ofOption (Streaming.streamFile machine.unicode asF64 path onChunk
      (chunkSizeOf machine chunkSize) machine.reserves opened state turns)).map
        fun ended => .file ended.1
  | .textSlice text _ start stop =>
    (Outcome.ofOption (start.saturatingI64.bind fun start => stop.saturatingI64.bind fun stop =>
      textSliceChecked machine.unicode text start stop)).map .text
  | .textAt text _ index =>
    (Outcome.ofOption (index.saturatingI64.bind fun index =>
      textAtChecked machine.unicode text index)).map .text
  | .arrayIndex array _ index => (arrayIndex machine array index).map .element
  | .arrayAt array _ index => (arrayAt array index).map .found
  | .repeat_ text _ count => (repeat_ machine text count turns).map .text
  | .range lo hi => (range machine lo hi).map .bounds
  | .exit code => (Outcome.ofOption code.saturatingI32).map .exited

end Calls

end Quilon.Ranges.Numbers
