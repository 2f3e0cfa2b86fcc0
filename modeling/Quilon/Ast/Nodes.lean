import Mathlib.Data.Rat.Defs

/-!
# Syntax trees

The node definitions of `src/ast/nodes.rs`, as far as the passes modelled here read them.  Every
constructor of `Expression`, `Statement`, `Item`, `Pattern` and `Type` is kept, with its span: the
deferral analysis answers in spans and the code generator asks in spans.  Left out are the fields
no modelled pass reads (`type_name_uses`, `variant_declarations`, the payload spans of a sum).

A number literal is the rational it was written as; nothing here computes with it.
-/

namespace Quilon

/-- A source range: byte offsets in one file. -/
structure Span where
  start : Nat
  stop : Nat
  file : Nat
deriving DecidableEq, Repr

/-- `Type` of the source (`Ty` here: `Type` is a keyword). -/
inductive Ty where
  | num
  | text
  | bool
  | unit
  | array (element : Ty)
  | map (key value : Ty)
  | set (element : Ty)
  | record (fields : List (String × Ty))
  | named (name : String) (fields : List (String × Ty)) (methods : List String)
  | generic (name : String)
  | function (parameters : List Ty) (returnType : Ty)
  | sum (name : String) (variants : List (String × List Ty))

inductive BinaryOperator where
  | add | sub | mul | div | mod | setIntersect | eq | ne | lt | le | gt | ge | and | or
deriving DecidableEq, Repr

/-- The operator's source symbol, which doubles as its overload-set name. -/
def BinaryOperator.symbol : BinaryOperator → String
  | .add => "+"
  | .sub => "-"
  | .mul => "*"
  | .div => "/"
  | .mod => "%"
  | .setIntersect => "+-"
  | .eq => "=="
  | .ne => "!="
  | .lt => "<"
  | .le => "<="
  | .gt => ">"
  | .ge => ">="
  | .and => "&&"
  | .or => "||"

inductive UnaryOperator where
  | neg | not
deriving DecidableEq, Repr

inductive Pattern where
  | identifier (name : String) (span : Span)
  | number (value : Rat) (span : Span)
  | text (value : String) (span : Span)
  | constructor (name : String) (arguments : List Pattern) (span : Span)
  | wildcard (span : Span)

structure Parameter where
  name : String
  typeAnnotation : Option Ty
  span : Span

mutual

inductive Expression where
  | number (value : Rat) (span : Span)
  | string (value : String) (span : Span)
  | interpolation (parts : List InterpolationPart) (span : Span)
  | bool (value : Bool) (span : Span)
  | unit (span : Span)
  | identifier (name : String) (span : Span)
  | binaryOperator (left : Expression) (operator : BinaryOperator) (right : Expression)
      (span : Span)
  | unaryOperator (operator : UnaryOperator) (expression : Expression) (span : Span)
  | call (function : Expression) (arguments : List Expression) (memberCall : Bool) (span : Span)
  | lambda (parameters : List Parameter) (returnType : Option Ty) (body : Expression)
      (span : Span)
  | block (statements : List Statement) (span : Span)
  | ifThenElse (condition then_ else_ : Expression) (span : Span)
  | match_ (expression : Expression) (arms : List MatchArm) (span : Span)
  | fieldAccess (expression : Expression) (field : String) (span : Span)
  | fieldAssign (target value : Expression) (span : Span)
  | index (expression index : Expression) (span : Span)
  | indexAssign (target value : Expression) (span : Span)
  | array (elements : List Expression) (span : Span)
  | mapLiteral (entries : List (Expression × Expression)) (span : Span)
  | setLiteral (elements : List Expression) (span : Span)
  | record (fields : List (String × Expression)) (span : Span)
  | constructor (typeName : String) (fields : List (String × Expression)) (span : Span)
  | range (start stop : Expression) (span : Span)
  | spread (expression : Expression) (span : Span)

/-- One piece of an interpolated string. -/
inductive InterpolationPart where
  | literal (text : String)
  | hole (expression : Expression)

structure MatchArm where
  pattern : Pattern
  body : Expression
  span : Span

inductive Statement where
  | item (item : Item)
  | expression (expression : Expression)

inductive Item where
  | variableDeclaration (declaration : VariableDeclaration)
  | functionDeclaration (declaration : FunctionDeclaration)
  | typeDeclaration (declaration : TypeDeclaration)
  | trapDeclaration (declaration : TrapDeclaration)

structure VariableDeclaration where
  isMutable : Bool
  name : String
  typeAnnotation : Option Ty
  value : Expression
  exported : Bool
  atomic : Bool
  span : Span

structure FunctionDeclaration where
  name : String
  parameters : List Parameter
  returnType : Option Ty
  bindingType : Option Ty
  body : Expression
  exported : Bool
  fromCorelib : Bool
  span : Span

structure TypeDeclaration where
  name : String
  typeDefinition : TypeDefinition
  exported : Bool
  span : Span

structure TrapDeclaration where
  arms : List MatchArm
  span : Span

inductive TypeDefinition where
  | sum (variants : List (String × List Ty)) (methods : List MethodDeclaration)
  | record (fields : List (String × Ty)) (methods : List MethodDeclaration)

structure MethodDeclaration where
  name : String
  parameters : List Parameter
  returnType : Option Ty
  body : Expression
  mutating : Bool
  span : Span

end

/-- A linked program.  `imports` and `test_blocks` are consumed before the passes modelled here
run. -/
structure Program where
  items : List Item

instance : Inhabited Expression := ⟨.unit ⟨0, 0, 0⟩⟩

/-- The methods declared on a type, for either kind. -/
def TypeDefinition.methods : TypeDefinition → List MethodDeclaration
  | .sum _ methods => methods
  | .record _ methods => methods

def Expression.span : Expression → Span
  | .number _ span | .string _ span | .interpolation _ span | .bool _ span | .unit span
  | .identifier _ span | .binaryOperator _ _ _ span | .unaryOperator _ _ span
  | .call _ _ _ span | .lambda _ _ _ span | .block _ span | .ifThenElse _ _ _ span
  | .match_ _ _ span | .fieldAccess _ _ span | .fieldAssign _ _ span | .index _ _ span
  | .indexAssign _ _ span | .array _ span | .mapLiteral _ span | .setLiteral _ span
  | .record _ span | .constructor _ _ span | .range _ _ span | .spread _ span => span

/-! ### Names the language itself knows -/

/-- The implicit receiver of a method or operator member. -/
def RECEIVER : String := "it"

/-- The bare name of the `@` leaf IO primitive `name` refers to: what follows its last `@`
(`rsplit_once`), qualified or not. -/
def atPrimitiveName (name : String) : Option String :=
  match name.toList.reverse.span (· ≠ '@') with
  | (_, []) => none
  | (reversed, _ :: _) => some (String.ofList reversed.reverse)

/-- The last segment of a qualified name (`rsplit('.').next()`). -/
def displayName (name : String) : String :=
  String.ofList (name.toList.reverse.takeWhile (· ≠ '.')).reverse

/-- The `core.text` function implementing the Text method `name`, under its qualified name. -/
def qnTextImpl (name : String) : Option String :=
  if name = "trim" then some "core.text.trim"
  else if name = "contains" then some "core.text.contains"
  else if name = "repeat" then some "core.text.repeat"
  else none

/-- The names of `BUILTIN_OVERLOADS` and `RENDERABLE_BUILTINS`, in the tables' order. -/
def builtinNames : List String :=
  ["core.time.now", "__platform", "__os", "__quilon_version", "__pointer_bits",
    "__is_big_endian", "__is_aot", "__exit", "__color_enabled", "__test_suite_enter",
    "__test_suite_selected", "__test_case_selected", "__test_case_failing",
    "__test_case_finish", "__test_summary", "core.io.print", "core.io.eprint", "core.io.write"]

def isOperatorSymbol (name : String) : Bool :=
  ["+", "-", "*", "/", "%", "==", "!=", "<", "<=", ">", ">=", "&&", "||"].contains name

def isCompilerProvidedName (name : String) : Bool :=
  builtinNames.contains name

/-- The corelib's own declaration of a name the compiler provides itself. -/
def FunctionDeclaration.isInertCorelibPlaceholder (declaration : FunctionDeclaration) : Bool :=
  declaration.fromCorelib &&
    (isCompilerProvidedName declaration.name ||
      (!declaration.name.toList.contains '.' &&
        builtinNames.any fun builtin => displayName builtin == declaration.name))

example : atPrimitiveName "core.io.@readStdin" = some "readStdin" := by decide

end Quilon
