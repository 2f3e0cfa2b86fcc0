import Quilon.Corelib.BlankLine
import Quilon.Runtime.Collections

/-!
# The parts of a URL

The accessors of `Request` in `corelib/http.qn` that read its URL, the address `send` dials, and
`Values` and `Params`, which hold what a query says.  Each accessor scans the text for itself.

A map of values is that of the runtime, so what is set in it may be listed in any order.
-/

namespace Quilon.Http

open Text Collections

/-! ### Values and parameters -/

section Values

variable {User : Type} (users : UserKeys User) (finish : UInt8 → Written → UInt64)

structure Values where
  entries : Collections.Header users finish (List QnSlice)

/-- The order the entries of a map of texts are iterated in. -/
abbrev EntryOrder (User : Type) := Collections.Order (QnKey User × List QnSlice)

variable {users finish} (order : EntryOrder User) (debug : Bool)

namespace Values

def empty : Values users finish := ⟨mapNew order⟩

def all (values : Values users finish) (name : QnSlice) : List QnSlice :=
  match mapGet values.entries (.text name.content) with
  | some list => list
  | none => []

/-- `add` of one value. -/
def add (values : Values users finish) (name value : QnSlice) : Option (Values users finish) :=
  (mapSet debug order values.entries (.text name.content) (values.all name ++ [value])).map
    fun entries => ⟨entries⟩

end Values

structure Params (users : UserKeys User) (finish : UInt8 → Written → UInt64) where
  values : Values users finish

namespace Params

def empty : Params users finish := ⟨Values.empty order⟩

def all (params : Params users finish) (name : QnSlice) : List QnSlice := params.values.all name

def add (params : Params users finish) (name value : QnSlice) : Option (Params users finish) :=
  (params.values.add order debug name value).map fun values => ⟨values⟩

variable (unicode : Unicode)

/-- What `parse` does with one pair. -/
def addPair (params : Params users finish) (pair : QnSlice) : Option (Params users finish) := do
  match ← pair.indexOf unicode (literal unicode "=") with
  | some mark =>
    params.add order debug (← pair.slice unicode 0 mark)
      (← pair.slice unicode (mark + 1) pair.length)
  | none => params.add order debug pair (literal unicode "")

def parse (query : QnSlice) : Option (Params users finish) :=
  ((query.split unicode (literal unicode "&")).filter
    fun pair => !pair.equals (literal unicode "")).foldlM
      (addPair order debug unicode) (Params.empty order)

end Params

end Values

/-! ### Requests -/

/-- `net.Transport` -/
inductive Transport where
  | Plain
  | TLS
deriving DecidableEq

structure RequestOptions where
  transport : Transport

structure Request where
  url : QnSlice
  options : RequestOptions

variable (unicode : Unicode)

namespace Request

def scheme (it : Request) : Option QnSlice := do
  match ← it.url.indexOf unicode (literal unicode "://") with
  | some mark => return (← it.url.slice unicode 0 mark).toLower unicode
  | none => return literal unicode ""

def withoutScheme (it : Request) : Option QnSlice := do
  match ← it.url.indexOf unicode (literal unicode "://") with
  | some mark => it.url.slice unicode (mark + 3) it.url.length
  | none => return it.url

def usesTLS (it : Request) : Option Bool :=
  match it.options.transport with
  | .TLS => some true
  | .Plain => (it.scheme unicode).map fun scheme => scheme.equals (literal unicode "https")

def authorityEnd (it : Request) : Option Int := do
  let rest ← it.withoutScheme unicode
  let atPath ← foundOrEnd unicode rest (literal unicode "/")
  let atQuery ← foundOrEnd unicode rest (literal unicode "?")
  let atFragment ← foundOrEnd unicode rest (literal unicode "#")
  let nearest := if atPath < atQuery then atPath else atQuery
  return if nearest < atFragment then nearest else atFragment

def authority (it : Request) : Option QnSlice := do
  let named ← (← it.withoutScheme unicode).slice unicode 0 (← it.authorityEnd unicode)
  let parts := named.split unicode (literal unicode "@")
  parts[parts.length - 1]?

/-- The local `target` of `path`. -/
def target (it : Request) : Option QnSlice := do
  let rest ← it.withoutScheme unicode
  let start ← it.authorityEnd unicode
  let stop ← foundOrEnd unicode rest (literal unicode "#")
  if start < stop then rest.slice unicode start stop else return literal unicode ""

def path (it : Request) : Option QnSlice := do
  let target ← it.target unicode
  if target.equals (literal unicode "") then return literal unicode "/"
  else
    let first ← target.slice unicode 0 1
    return if first.equals (literal unicode "/") then target
      else (literal unicode "/").append unicode target

def params {User : Type} {users : UserKeys User} {finish : UInt8 → Written → UInt64}
    (order : EntryOrder User) (debug : Bool) (it : Request) : Option (Params users finish) := do
  let target ← it.path unicode
  match ← target.indexOf unicode (literal unicode "?") with
  | some mark =>
    Params.parse order debug unicode (← target.slice unicode (mark + 1) target.length)
  | none => return Params.empty order

/-- What `send` makes the address of. -/
def address (it : Request) : Option QnSlice := do
  let tls ← it.usesTLS unicode
  let host ← it.authority unicode
  if ← host.contains unicode (literal unicode ":") then return host
  else return host.append unicode (literal unicode (if tls then ":443" else ":80"))

end Request

end Quilon.Http
