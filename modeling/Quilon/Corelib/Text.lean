import Quilon.Runtime.Indexing

/-!
# Text methods as programs call them

What `generate_text_method` (`codegen/generator/text.rs`) makes of the runtime's answers, and
`contains` of `corelib/text.qn`.  A call that would end the program is `none`; a `Result` is `some` in
its `Ok` variant, the payload of `NotOk` being left out.  Indices and counts are integers.
-/

namespace Quilon.Text

variable (unicode : Unicode)

/-- A text written in a program. -/
def literal (text : String) : QnSlice := literalText unicode (Utf8.encode text.toList)

namespace QnSlice

def length (text : QnSlice) : Int := (textHeaderOf text).count

def size (text : QnSlice) : Int := text.content.length

/-- `==` -/
def equals (left right : QnSlice) : Bool := left.content == right.content

def slice (text : QnSlice) (start stop : Int) : Option QnSlice :=
  textSliceChecked unicode text start stop

def indexOf (text sub : QnSlice) : Option (Option Int) :=
  (textFindFrom unicode text sub 0).map fun found => if 0 ≤ found then some found else none

def contains (text sub : QnSlice) : Option Bool :=
  (text.indexOf unicode sub).map fun found => found.isSome

/-- `+` -/
def append (left right : QnSlice) : QnSlice := textConcat unicode left right

def toLower (text : QnSlice) : QnSlice := textToLower unicode text

def split (text separator : QnSlice) : List QnSlice := textSplit unicode text separator

end QnSlice

end Quilon.Text
