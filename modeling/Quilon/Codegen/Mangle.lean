import Quilon.Typechecker.Overloads

/-!
# Symbol mangling

`type_mangle`, `mangle_overload` (`codegen/generator/mangle.rs`) and `matching_overload`
(`codegen/generator/oracle.rs`).  A tag is kept as its list of characters.

Every type without a case of its own in `type_mangle` falls back to its `{:?}` rendering with
everything but letters, digits and `$` removed.  `debug` is the derived `Debug` of `Type`;
`CharTable` is what it takes from the standard library: `char::is_alphanumeric` and the
escaping of a quoted string, of which only their behaviour on ASCII is fixed.
-/

namespace Quilon

structure CharTable where
  isAlphanumeric : Char → Bool
  escapeDebug : Char → List Char
  ascii_alphanumeric : ∀ c : Char, c.toNat < 128 → isAlphanumeric c = c.isAlphanum

/-- The table restricted to ASCII, exact for every program whose names are ASCII. -/
def CharTable.ascii : CharTable where
  isAlphanumeric := Char.isAlphanum
  escapeDebug c := if c = '"' ∨ c = '\\' then ['\\', c] else [c]
  ascii_alphanumeric _ _ := rfl

namespace CharTable

variable (table : CharTable)

/-- The characters of a literal; irreducible, so that unfolding a rendering does not decode it. -/
@[irreducible]
def chars (literal : String) : List Char :=
  literal.toList

/-- `{:?}` of a string. -/
def debugString (s : String) : List Char :=
  '"' :: s.toList.flatMap table.escapeDebug ++ ['"']

/-- The items of a debug list, separated by `, `. -/
def commaSeparated : List (List Char) → List Char
  | [] => []
  | [item] => item
  | item :: rest => item ++ chars ", " ++ commaSeparated rest

def debugStrings (names : List String) : List Char :=
  '[' :: commaSeparated (names.map table.debugString) ++ [']']

mutual

/-- `{:?}` of a type. -/
def debug : Ty → List Char
  | .num => chars "Num"
  | .text => chars "Text"
  | .bool => chars "Bool"
  | .unit => chars "Unit"
  | .array element => chars "Array(" ++ debug element ++ chars ")"
  | .map key value => chars "Map(" ++ debug key ++ chars ", " ++ debug value ++ chars ")"
  | .set element => chars "Set(" ++ debug element ++ chars ")"
  | .record fields => chars "Record([" ++ commaSeparated (debugFields fields) ++ chars "])"
  | .named name fields methods =>
    chars "Named \x7b name: " ++ table.debugString name ++ chars ", fields: [" ++
      commaSeparated (debugFields fields) ++ chars "], methods: " ++
      table.debugStrings methods ++ chars " \x7d"
  | .generic name => chars "Generic \x7b name: " ++ table.debugString name ++ chars " \x7d"
  | .function parameters returnType =>
    chars "Function \x7b parameters: [" ++ commaSeparated (debugTypes parameters) ++
      chars "], return_type: " ++ debug returnType ++ chars " \x7d"
  | .sum name variants =>
    chars "Sum \x7b name: " ++ table.debugString name ++ chars ", variants: [" ++
      commaSeparated (debugVariants variants) ++ chars "] \x7d"

def debugTypes : List Ty → List (List Char)
  | [] => []
  | ty :: rest => debug ty :: debugTypes rest

def debugFields : List (String × Ty) → List (List Char)
  | [] => []
  | (name, ty) :: rest =>
    (chars "(" ++ table.debugString name ++ chars ", " ++ debug ty ++ chars ")") ::
      debugFields rest

def debugVariants : List (String × List Ty) → List (List Char)
  | [] => []
  | (name, fields) :: rest =>
    (chars "SumVariant \x7b name: " ++ table.debugString name ++ chars ", fields: [" ++
      commaSeparated (debugTypes fields) ++ chars "] \x7d") :: debugVariants rest

end

/-- What the fallback tag keeps of a rendering. -/
def keeps (c : Char) : Bool :=
  table.isAlphanumeric c || c == '$'

/-- The tag of one parameter type. -/
def typeMangle : Ty → List Char
  | .num => ['N']
  | .text => ['T']
  | .bool => ['B']
  | .unit => ['U']
  | .array element => 'A' :: typeMangle element
  | .named name _ _ | .sum name _ => chars "named$" ++ name.toList
  | .generic _ => ['N']
  | .map key value => ('X' :: table.debug (.map key value)).filter table.keeps
  | .set element => ('X' :: table.debug (.set element)).filter table.keeps
  | .function parameters returnType =>
    ('X' :: table.debug (.function parameters returnType)).filter table.keeps
  | .record fields => ('X' :: table.debug (.record fields)).filter table.keeps

/-- A map falls back to its rendering. -/
example : ascii.typeMangle (.map .num .text) = "XMapNumText".toList := by
  rw [typeMangle, debug, debug, debug, chars, chars, chars, chars, chars]
  decide

end CharTable

def operatorWord (name : String) : Option String :=
  match name with
  | "+" => some "add"
  | "-" => some "sub"
  | "*" => some "mul"
  | "/" => some "div"
  | "%" => some "mod"
  | "==" => some "eq"
  | "!=" => some "ne"
  | "<" => some "lt"
  | "<=" => some "le"
  | ">" => some "gt"
  | ">=" => some "ge"
  | "&&" => some "and"
  | "||" => some "or"
  | _ => none

/-- The symbol of one member: its name plus a tag per parameter. -/
def mangleOverload (table : CharTable) (name : String) (parameters : List Ty) : List Char :=
  (match operatorWord name with
    | some word => "op.".toList ++ word.toList
    | none => name.toList) ++
    parameters.flatMap fun parameter => '$' :: table.typeMangle parameter

/-- The first member whose written parameters carry the arguments' tags. -/
def matchingOverload (table : CharTable) (members : List Overload) (argTypes : List Ty) :
    Option Overload :=
  members.find? fun o =>
    parametersAccept o.declared argTypes fun p a => table.typeMangle p == table.typeMangle a

end Quilon
