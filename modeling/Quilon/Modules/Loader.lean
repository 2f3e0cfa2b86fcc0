import Quilon.Ast.Walk

/-!
# The module loader

`link` (`src/modules.rs`): a program's `<<` imports are resolved depth first, and the items of every
module are put before the program's own, under the module's name (`src/ast/qualify.rs`).

A `HashMap` is a list of entries of which the first counts, and a `HashSet` a list.  The file
system, the lexer with the parser, and the walk that renames the references of an item are a
`World`; the bundled modules import what they import in `corelib/`.  Left out are the source map and
the file identities, which nothing here reads.
-/

namespace Quilon

/-- A trap declares no name of its own; this stands in wherever a pass needs one. -/
def TRAP_NAME : String := "!>"

def Item.name : Item → String
  | .variableDeclaration declaration => declaration.name
  | .functionDeclaration declaration => declaration.name
  | .typeDeclaration declaration => declaration.name
  | .trapDeclaration _ => TRAP_NAME

def Item.span : Item → Span
  | .variableDeclaration declaration => declaration.span
  | .functionDeclaration declaration => declaration.span
  | .typeDeclaration declaration => declaration.span
  | .trapDeclaration declaration => declaration.span

def Item.isExported : Item → Bool
  | .variableDeclaration declaration => declaration.exported
  | .functionDeclaration declaration => declaration.exported
  | .typeDeclaration declaration => declaration.exported
  -- A trap has no `>>` form.
  | .trapDeclaration _ => false

namespace Modules

inductive ModulePath where
  /-- built-in module referenced by dotted name -/
  | builtinDotted (parts : List String)
  /-- user module referenced by a file path -/
  | filePath (raw : String)
deriving DecidableEq

structure Import where
  path : ModulePath
  span : Span
deriving DecidableEq

/-- What the loader reads of a parsed file. -/
structure Parsed where
  imports : List Import
  items : List Item
  testBlocks : List Expression

/-- The codes the loader itself gives; those of the lexer, the parser and the walk by number. -/
inductive Code where
  | notAQuilonSource
  | unknownModule
  | nameClaimedByImport
  | importCycle
  | moduleNameCollision
  | other (number : Nat)
deriving DecidableEq

/-- A resolution failure, located at the reference or declaration that caused it. -/
structure QualifyError where
  code : Code
  span : Span
  message : String

/-! ### Scopes -/

/-- The entry of a name, made unless it is there (`entry(..).or_insert(..)`). -/
def orInsert {α : Type} (table : List (String × α)) (name : String) (value : α) :
    List (String × α) :=
  if (table.lookup name).isSome then table else (name, value) :: table

/-- What one file's `<<` lines bind. -/
structure ModuleScope where
  /-- the canonical names a short binding stands for -/
  aliases : List (String × List String)
  /-- the bare names a module exports -/
  exports : List (String × List String)
  /-- the import spelling that claims a name -/
  claimed : List (String × String)

def ModuleScope.empty : ModuleScope := ⟨[], [], []⟩

/-- The leading segment of a dotted name (`split('.').next()`). -/
def leadingSegment (name : String) : String :=
  String.ofList (name.toList.takeWhile (· ≠ '.'))

def ModuleScope.addImport (scope : ModuleScope) (short canonical : String) (exports : List String)
    (span : Span) : Except QualifyError ModuleScope :=
  let add (aliases : List (String × List String)) : ModuleScope :=
    let claimed := orInsert scope.claimed short canonical
    let first := leadingSegment canonical
    { aliases := aliases
      exports := orInsert scope.exports canonical exports
      claimed := if first ≠ canonical then orInsert claimed first canonical else claimed }
  match scope.aliases.lookup short with
  | some existing =>
    if canonical ∈ existing then .ok (add scope.aliases)
    else if canonical = short ∨ short ∈ existing then
      .error ⟨.moduleNameCollision, span,
        s!"two imported modules are both named `{short}`, and a module imported by file path " ++
          "has no longer name to fall back on; rename the file or drop one of the imports"⟩
    else .ok (add ((short, existing ++ [canonical]) :: scope.aliases))
  | none => .ok (add ((short, [canonical]) :: scope.aliases))

/-- Reject a top-level item whose name an import claims. -/
def checkClaim (scope : ModuleScope) (item : Item) : Except QualifyError Unit :=
  match scope.claimed.lookup item.name with
  | some spelling =>
    .error ⟨.nameClaimedByImport, item.span,
      s!"`{item.name}` is claimed by the import of `{spelling}` — a binding may not reuse an " ++
        "imported module's name"⟩
  | none => .ok ()

/-- The variants of a sum that an item declares. -/
def variantNames : Item → List String
  | .typeDeclaration declaration =>
    match declaration.typeDefinition with
    | .sum variants _ => variants.map (·.1)
    | .record _ _ => []
  | _ => []

/-- A module's own top-level names and their qualified spellings. -/
def renames (items : List Item) (fqdn : String) : List (String × String) :=
  (items.flatMap fun item => item.name :: variantNames item).map fun name =>
    (name, s!"{fqdn}.{name}")

def renamed (renames : List (String × String)) (name : String) : String :=
  (renames.lookup name).getD name

def renameItem (renames : List (String × String)) : Item → Item
  | .variableDeclaration declaration =>
    .variableDeclaration { declaration with name := renamed renames declaration.name }
  | .functionDeclaration declaration =>
    .functionDeclaration { declaration with name := renamed renames declaration.name }
  | .typeDeclaration declaration =>
    .typeDeclaration
      { declaration with
        name := renamed renames declaration.name
        typeDefinition :=
          match declaration.typeDefinition with
          | .sum variants methods =>
            .sum (variants.map fun variant => (renamed renames variant.1, variant.2)) methods
          | .record fields methods => .record fields methods }
  -- A trap declares no name of its own to rename.
  | .trapDeclaration declaration => .trapDeclaration declaration

/-! ### What the loader is given -/

/-- A resolution key: `builtin:core.io` or `file:/abs/path.qn`. -/
inductive Key where
  | builtin (name : String)
  | file (path : String)
deriving DecidableEq

/-- The file system, the lexer and parser on the file a path leads to, and the walk of
`src/ast/qualify.rs`.  Paths are the text they are shown as. -/
structure World where
  isAbsolute : String → Bool
  join : String → String → String
  fileStem : String → Option String
  parent : String → Option String
  /-- the text, or why it cannot be read -/
  readToString : String → Except String String
  canonicalize : String → Option String
  parse : String → Except QualifyError Parsed
  /-- `char::is_alphanumeric` -/
  isAlphanumeric : Char → Bool
  /-- the items of the bundled modules -/
  corelib : String → List Item
  /-- `Walker::item` and `Walker::expression` -/
  walkItem : List (String × String) → ModuleScope → Item → Except QualifyError Item
  walkExpression : ModuleScope → Expression → Except QualifyError Expression
  dot_not_alphanumeric : isAlphanumeric '.' = false
  /-- a path that ends in a file's name has a parent -/
  parent_isSome : ∀ path, (parent ((canonicalize path).getD path)).isSome

/-- `CORELIB_MODULES`, with what the sources import. -/
def CORELIB_MODULES : List (String × List (List String)) :=
  [("core.io", []), ("core.text", [["core", "test"]]), ("core.test", [["core", "io"]]),
    ("core.cli", []), ("core.time", []), ("core.net", [["core", "test"]]),
    ("core.http", [["core", "net"], ["core", "test"]]), ("core.info", []), ("core.process", [])]

variable (world : World)

def World.canonicalKey (path : String) : String := (world.canonicalize path).getD path

def dotted (parts : List String) : String := String.intercalate "." parts

/-- The module a key stands for. -/
def World.module : Key → Except QualifyError Parsed
  | .builtin name =>
    let imports := (CORELIB_MODULES.lookup name).getD []
    .ok ⟨imports.map fun parts => ⟨.builtinDotted parts, ⟨0, 0, 0⟩⟩, world.corelib name, []⟩
  | .file path => world.parse path

def qualifyModule (items : List Item) (fqdn : String) (scope : ModuleScope) :
    Except QualifyError (List Item) := do
  let names := renames items fqdn
  items.forM (checkClaim scope)
  (items.map (renameItem names)).mapM (world.walkItem names scope)

def resolveProgram (program : Parsed) (scope : ModuleScope) : Except QualifyError Parsed := do
  let items ← program.items.mapM fun item => do
    checkClaim scope item
    world.walkItem [] scope item
  let testBlocks ← program.testBlocks.mapM (world.walkExpression scope)
  return { program with items, testBlocks }

/-! ### Locating an import -/

/-- What an import leads to. -/
structure Located where
  key : Key
  canonical : String
  nextBase : String

/-- The short name a file-path import binds. -/
def moduleBindingName (normalized : String) (span : Span) : Except QualifyError String :=
  let stem := (world.fileStem normalized).getD ""
  let startsWithDigit := (stem.toList.head?.map Char.isDigit).getD false
  if stem ≠ "" ∧ ¬ startsWithDigit ∧
      stem.toList.all (fun c => world.isAlphanumeric c || c == '_') then
    .ok stem
  else
    .error ⟨.moduleNameCollision, span,
      s!"the module file name `{stem}` is not usable as a binding — call sites reach the module " ++
        s!"as `{stem}.<name>`, so the stem must be a valid identifier; rename the file"⟩

def requireSource (path : String) : Except String Unit :=
  if ".qn".toList <:+ path.toList then .ok ()
  else .error s!"`{path}` is not a Quilon source: sources are named `.qn`"

/-- The first part of `resolve_one`.  `injecting` is the loader's `injecting_core_text`. -/
def locate (injecting : Bool) (imported : Import) (base : String) : Except QualifyError Located :=
  match imported.path with
  | .builtinDotted parts =>
    let name := dotted parts
    if name = "core.text" ∧ injecting = false then
      .error ⟨.unknownModule, imported.span,
        "`core.text` is the compiler's own and cannot be imported — the Text methods it " ++
          "implements need no import at all"⟩
    else if (CORELIB_MODULES.lookup name).isSome then .ok ⟨.builtin name, name, base⟩
    else .error ⟨.unknownModule, imported.span, s!"unknown built-in module `{name}`"⟩
  | .filePath raw => do
    let normalized := raw.map fun c => if c = '\\' then '/' else c
    let full := if world.isAbsolute normalized then normalized else world.join base normalized
    (requireSource full).mapError fun message => ⟨.notAQuilonSource, imported.span, message⟩
    let stem ← moduleBindingName world normalized imported.span
    let _ ← (world.readToString full).mapError fun e =>
      ⟨.unknownModule, imported.span, s!"cannot read module `{full}`: {e}"⟩
    let canonicalFull := world.canonicalKey full
    return ⟨.file canonicalFull, stem, (world.parent canonicalFull).getD base⟩

/-! ### Loading -/

/-- The items of one module, as they are merged. -/
structure Block where
  key : Key
  canonical : String
  items : List Item

/-- `out` is kept in blocks, one for each module merged. -/
structure Loader where
  loaded : List (String × Key)
  inProgress : List Key
  stack : List String
  exports : List (String × List String)
  out : List Block

/-- Why a link fails: one of the two guards of `resolve_one`, or anything else. -/
inductive Failure where
  | importCycle (span : Span) (chain : List String)
  | nameCollision (span : Span) (canonical : String)
  | other (error : QualifyError)

/-- The failure as it is reported. -/
def Failure.toQualifyError : Failure → QualifyError
  | .importCycle span chain =>
    let path := String.intercalate " -> " chain
    ⟨.importCycle, span,
      s!"import cycle: {path} — a module cannot import itself, " ++
        "directly or through others"⟩
  | .nameCollision span canonical =>
    ⟨.moduleNameCollision, span,
      s!"two different modules are both named `{canonical}` — every imported module needs a " ++
        "distinct name; rename one of the files"⟩
  | .other error => error

/-- The bare names a module's items export. -/
def exportedNames (items : List Item) : List String :=
  items.flatMap fun item => if item.isExported then item.name :: variantNames item else []

def Loader.new : Loader := ⟨[], [], [], [], []⟩

def Loader.enter (loader : Loader) (key : Key) (canonical : String) : Loader :=
  { loader with
    loaded := (canonical, key) :: loader.loaded
    inProgress := key :: loader.inProgress
    stack := loader.stack ++ [canonical] }

def Loader.export (loader : Loader) (canonical : String) (names : List String) : Loader :=
  { loader with exports := (canonical, names) :: loader.exports }

def Loader.leave (loader : Loader) (block : Block) : Loader :=
  { loader with
    inProgress := loader.inProgress.erase block.key
    stack := loader.stack.dropLast
    out := loader.out ++ [block] }

/-- A bundled module's functions carry their origin. -/
def markOrigin (fromCorelib : Bool) : Item → Item
  | .functionDeclaration declaration =>
    .functionDeclaration { declaration with fromCorelib := fromCorelib }
  | item => item

def ModulePath.isBuiltin : ModulePath → Bool
  | .builtinDotted _ => true
  | .filePath _ => false

/-- Add one resolved import to `scope` under its short binding. -/
def Loader.bind (loader : Loader) (scope : ModuleScope) (canonical : String) (imported : Import) :
    Except QualifyError ModuleScope :=
  scope.addImport (displayName canonical) canonical ((loader.exports.lookup canonical).getD [])
    imported.span

/-- What loading gives; `none` when the fuel runs out. -/
abbrev Load (α : Type) := Option (Except Failure α)

/-- An error of a part that is not the loader's own. -/
def orOther {α β : Type} (result : Except QualifyError α) (next : α → Load β) : Load β :=
  match result with
  | .ok value => next value
  | .error error => some (.error (.other error))

/-- One import after another is resolved and bound (`root_scope`, and the same loop over a module's
own imports). -/
def resolveImports (resolve : Loader → Import → String → Load (Loader × String)) (base : String) :
    List Import → Loader × ModuleScope → Load (Loader × ModuleScope)
  | [], state => some (.ok state)
  | imported :: rest, (loader, scope) =>
    match resolve loader imported base with
    | some (.ok (loader, canonical)) =>
      orOther (loader.bind scope canonical imported) fun scope =>
        resolveImports resolve base rest (loader, scope)
    | some (.error failure) => some (.error failure)
    | none => none

/-- Load one module and, transitively, its own imports, qualify its items under its canonical name,
and append them to `out`.  Returns the canonical name. -/
def resolveOne (injecting : Bool) (fuel : Nat) (loader : Loader) (imported : Import)
    (base : String) : Load (Loader × String) :=
  orOther (locate world injecting imported base) fun ⟨key, canonical, nextBase⟩ =>
    match fuel with
    | 0 => none
    | fuel + 1 =>
      if key ∈ loader.inProgress then
        some (.error (.importCycle imported.span (loader.stack ++ [canonical])))
      else
        match loader.loaded.lookup canonical with
        | some existing =>
          if existing = key then some (.ok (loader, canonical))
          else some (.error (.nameCollision imported.span canonical))
        | none =>
          let inModule (e : QualifyError) : QualifyError :=
            { e with message := s!"in module `{canonical}`: {e.message}" }
          orOther ((world.module key).mapError inModule) fun sub =>
            match resolveImports (resolveOne injecting fuel) nextBase sub.imports
                (loader.enter key canonical, .empty) with
            | some (.ok (loader, scope)) =>
              orOther (qualifyModule world sub.items canonical scope) fun items =>
                let fromCorelib := imported.path.isBuiltin
                let block := ⟨key, canonical, items.map (markOrigin fromCorelib)⟩
                let loader := (loader.export canonical (exportedNames sub.items)).leave block
                some (.ok (loader, canonical))
            | some (.error failure) => some (.error failure)
            | none => none

/-! ### The composable Text methods -/

def isComposableCall : Expression → Bool
  | .call (.identifier name _) _ true _ => (qnTextImpl name).isSome
  | _ => false

/-- Whether the expression contains a member call named after a composable Text method. -/
def mentionsTextComposable (expression : Expression) : Bool :=
  expression.walkBreaks isComposableCall

def usesTextComposableItems (items : List Item) : Bool :=
  items.any fun item => item.bodies.any mentionsTextComposable

/-- Whether the program, or anything merged into it, calls a composable Text method. -/
def usesTextComposable (loader : Loader) (program : Parsed) : Bool :=
  usesTextComposableItems program.items || program.testBlocks.any mentionsTextComposable ||
    usesTextComposableItems (loader.out.flatMap Block.items)

/-- Merge `core.text` where it is used. -/
def injectCoreText (fuel : Nat) (loader : Loader) (program : Parsed) (base : String) :
    Load Loader :=
  if usesTextComposable loader program then
    match resolveOne world true fuel loader
        ⟨.builtinDotted ["core", "text"], ⟨0, 0, 0⟩⟩ base with
    | some (.ok (loader, _)) => some (.ok loader)
    | some (.error failure) => some (.error failure)
    | none => none
  else some (.ok loader)

/-! ### Linking -/

/-- The linked program: what is merged, and the root's own. -/
structure Linked where
  out : List Block
  program : Parsed

/-- The items of the linked program. -/
def Linked.items (linked : Linked) : List Item :=
  linked.out.flatMap Block.items ++ linked.program.items

/-- The loader with the root file, if there is one, in progress. -/
def rootLoader : Option String → Loader
  | none => .new
  | some root =>
    { Loader.new with
      inProgress := [.file (world.canonicalKey root)]
      stack := [(world.fileStem root).getD "the program"] }

def link (fuel : Nat) (program : Parsed) (base : String) (root : Option String) : Load Linked :=
  match resolveImports (resolveOne world false fuel) base program.imports
      (rootLoader world root, .empty) with
  | some (.ok (loader, scope)) =>
    orOther (resolveProgram world program scope) fun program =>
      match injectCoreText world fuel loader program base with
      | some (.ok loader) => some (.ok ⟨loader.out, { program with imports := [] }⟩)
      | some (.error failure) => some (.error failure)
      | none => none
  | some (.error failure) => some (.error failure)
  | none => none

end Modules

end Quilon
