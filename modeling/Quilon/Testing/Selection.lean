import Quilon.Testing.Registry

/-!
# Selecting tests in the source

`test_command.rs`: the paths a test file offers, the check of an `--only` list against them, and the
pruning of a `--binary` build, over the entry point `driver.rs` synthesizes; and the walk of the editor
(`lsp/analysis.rs`), which reads the file as written, before the linker (`ast/qualify.rs`) has put the
modules' full names into it.

The root file has no renames of its own, so linking replaces dotted names and nothing else; type
annotations, which nothing here reads, are left as they are.
-/

namespace Quilon.Testing

/-- `TEST_BLOCK_MARKER` -/
def testBlockMarker : String := "core.test.describe"

/-- `TEST_CASE_MARKER` -/
def testCaseMarker : String := "core.test.it"

/-- `SUMMARY_FUNCTION` -/
def summaryFunction : String := "core.test.reportSummary"

/-- The kind of call a linked name marks. -/
def markerKind (name : String) : Option Kind :=
  if name = testBlockMarker then some .suite
  else if name = testCaseMarker then some .case
  else none

/-- `value` below the path `before`. -/
def joined (before value : String) : String :=
  if before = "" then value else before ++ "/" ++ value

/-! ### The entry point -/

/-- The body of the entry point: each test block in source order, then the run's summary. -/
def synthesizeTestEntry (blocks : List Expression) (span : Span) : List Statement :=
  blocks.map Statement.expression ++
    [.expression (.call (.identifier summaryFunction span) [] false span)]

/-! ### Pruning -/

mutual

/-- Prune every test call directly inside a block, or a suite's lambda. -/
def pruneBlock (before : String) (only : List String) : Expression → Expression
  | .block statements span => .block (pruneStatements before only statements) span
  | .lambda parameters returnType body span =>
    .lambda parameters returnType (pruneBlock before only body) span
  | expression => expression

def pruneStatements (before : String) (only : List String) : List Statement → List Statement
  | [] => []
  | .expression expression :: rest =>
    match pruneCall before only expression with
    | some kept => .expression kept :: pruneStatements before only rest
    | none => pruneStatements before only rest
  | statement :: rest => statement :: pruneStatements before only rest

/-- One statement of a suite: `none` drops it. -/
def pruneCall (before : String) (only : List String) : Expression → Option Expression
  | .call (.identifier name nameSpan) [.string value valueSpan, body] memberCall span =>
    match markerKind name with
    | none => some (.call (.identifier name nameSpan) [.string value valueSpan, body] memberCall span)
    | some .case =>
      if covered (joined before value) only then
        some (.call (.identifier name nameSpan) [.string value valueSpan, body] memberCall span)
      else none
    | some .suite =>
      if covered (joined before value) only || nestsASelection (joined before value) only then
        some (.call (.identifier name nameSpan)
          [.string value valueSpan, pruneBlock (joined before value) only body] memberCall span)
      else none
  | expression => some expression

end

/-- What a `--binary` build compiles: an empty selection leaves the program alone. -/
def pruneUnselected (only : List String) (entry : List Statement) : List Statement :=
  if only.isEmpty then entry else pruneStatements "" only entry

/-! ### The paths of a file -/

mutual

/-- Every suite and case path of an expression, in source order. -/
def collectPaths (before : String) : Expression → List String
  | .call (.identifier name _) [.string value valueSpan, body] _ _ =>
    match markerKind name with
    | none => collectPaths before (.string value valueSpan) ++ collectPaths before body
    | some .case => [joined before value]
    | some .suite => joined before value :: collectPaths (joined before value) body
  | .call _ arguments _ _ => collectPathsOfAll before arguments
  | .lambda _ _ body _ => collectPaths before body
  | .block statements _ => collectPathsOfStatements before statements
  | _ => []

def collectPathsOfAll (before : String) : List Expression → List String
  | [] => []
  | expression :: rest => collectPaths before expression ++ collectPathsOfAll before rest

def collectPathsOfStatements (before : String) : List Statement → List String
  | [] => []
  | .expression expression :: rest =>
    collectPaths before expression ++ collectPathsOfStatements before rest
  | .item _ :: rest => collectPathsOfStatements before rest

end

/-- The first entry of `only` that names no path of the file. -/
def rejectUnknownSelection (entry : List Statement) (only : List String) : Option String :=
  only.find? fun selected =>
    !(collectPathsOfStatements "" entry).any fun path => selects selected path

/-! ### Linking -/

section Linking

variable (resolve : String → String)

/-- A reference: a dotted name is resolved through the imports, any other stays. -/
def linkName (name : String) : String :=
  if name.toList.contains '.' then resolve name else name

mutual

def linkPattern : Pattern → Pattern
  | .constructor name arguments span =>
    .constructor (linkName resolve name) (linkPatterns arguments) span
  | pattern => pattern

def linkPatterns : List Pattern → List Pattern
  | [] => []
  | pattern :: rest => linkPattern pattern :: linkPatterns rest

end

mutual

/-- `Walker::expression` of a root program. -/
def link : Expression → Expression
  | .number value span => .number value span
  | .string value span => .string value span
  | .bool value span => .bool value span
  | .unit span => .unit span
  | .identifier name span => .identifier (linkName resolve name) span
  | .interpolation parts span => .interpolation (linkParts parts) span
  | .call function arguments memberCall span =>
    .call (if memberCall then function else link function) (linkAll arguments) memberCall span
  | .binaryOperator left operator right span =>
    .binaryOperator (link left) operator (link right) span
  | .unaryOperator operator expression span => .unaryOperator operator (link expression) span
  | .lambda parameters returnType body span => .lambda parameters returnType (link body) span
  | .block statements span => .block (linkStatements statements) span
  | .ifThenElse condition then_ else_ span =>
    .ifThenElse (link condition) (link then_) (link else_) span
  | .match_ expression arms span => .match_ (link expression) (linkArms arms) span
  | .fieldAccess expression field span => .fieldAccess (link expression) field span
  | .fieldAssign target value span => .fieldAssign (link target) (link value) span
  | .index expression index span => .index (link expression) (link index) span
  | .indexAssign target value span => .indexAssign (link target) (link value) span
  | .array elements span => .array (linkAll elements) span
  | .mapLiteral entries span => .mapLiteral (linkEntries entries) span
  | .setLiteral elements span => .setLiteral (linkAll elements) span
  | .record fields span => .record (linkFields fields) span
  | .constructor typeName fields span =>
    .constructor (linkName resolve typeName) (linkFields fields) span
  | .range start stop span => .range (link start) (link stop) span
  | .spread expression span => .spread (link expression) span

def linkAll : List Expression → List Expression
  | [] => []
  | expression :: rest => link expression :: linkAll rest

def linkParts : List InterpolationPart → List InterpolationPart
  | [] => []
  | .literal text :: rest => .literal text :: linkParts rest
  | .hole expression :: rest => .hole (link expression) :: linkParts rest

def linkEntries : List (Expression × Expression) → List (Expression × Expression)
  | [] => []
  | (key, value) :: rest => (link key, link value) :: linkEntries rest

def linkFields : List (String × Expression) → List (String × Expression)
  | [] => []
  | (name, value) :: rest => (name, link value) :: linkFields rest

def linkArms : List MatchArm → List MatchArm
  | [] => []
  | ⟨pattern, body, span⟩ :: rest =>
    ⟨linkPattern resolve pattern, link body, span⟩ :: linkArms rest

def linkStatements : List Statement → List Statement
  | [] => []
  | .expression expression :: rest => .expression (link expression) :: linkStatements rest
  | .item item :: rest => .item (linkItem item) :: linkStatements rest

def linkItem : Item → Item
  | .variableDeclaration ⟨isMutable, name, annotation, value, exported, atomic, span⟩ =>
    .variableDeclaration ⟨isMutable, name, annotation, link value, exported, atomic, span⟩
  | .functionDeclaration
      ⟨name, parameters, returnType, bindingType, body, exported, fromCorelib, span⟩ =>
    .functionDeclaration
      ⟨name, parameters, returnType, bindingType, link body, exported, fromCorelib, span⟩
  | .typeDeclaration ⟨name, .sum variants methods, exported, span⟩ =>
    .typeDeclaration ⟨name, .sum variants (linkMethods methods), exported, span⟩
  | .typeDeclaration ⟨name, .record fields methods, exported, span⟩ =>
    .typeDeclaration ⟨name, .record fields (linkMethods methods), exported, span⟩
  | .trapDeclaration ⟨arms, span⟩ => .trapDeclaration ⟨linkArms arms, span⟩

def linkMethods : List MethodDeclaration → List MethodDeclaration
  | [] => []
  | ⟨name, parameters, returnType, body, mutating, span⟩ :: rest =>
    ⟨name, parameters, returnType, link body, mutating, span⟩ :: linkMethods rest

end

end Linking

/-! ### Test lenses -/

structure TestLens where
  kind : Kind
  name : String
  path : String
  span : Span
deriving DecidableEq, Repr

/-- The last segment of a dotted name. -/
def displayName (name : String) : String :=
  String.ofList (name.toList.reverse.takeWhile (· ≠ '.')).reverse

/-- Whether a written name is a module-qualified `describe` or `it`. -/
def harnessCallKind (name : String) : Option Kind :=
  if name.toList.contains '.' then
    if displayName name = "describe" then some .suite
    else if displayName name = "it" then some .case
    else none
  else none

mutual

def collectTestLenses (before : String) : Expression → List TestLens
  | .call (.identifier name nameSpan) [.string value valueSpan, body] false span =>
    match harnessCallKind name with
    | none =>
      collectTestLenses before (.identifier name nameSpan) ++
        (collectTestLenses before (.string value valueSpan) ++ collectTestLenses before body)
    | some .case => [⟨.case, value, joined before value, span⟩]
    | some .suite =>
      ⟨.suite, value, joined before value, span⟩ :: collectTestLenses (joined before value) body
  | .call function arguments false _ =>
    collectTestLenses before function ++ collectTestLensesOfAll before arguments
  | .lambda _ _ body _ => collectTestLenses before body
  | .block statements _ => collectTestLensesOfStatements before statements
  | _ => []

def collectTestLensesOfAll (before : String) : List Expression → List TestLens
  | [] => []
  | expression :: rest => collectTestLenses before expression ++ collectTestLensesOfAll before rest

def collectTestLensesOfStatements (before : String) : List Statement → List TestLens
  | [] => []
  | .expression expression :: rest =>
    collectTestLenses before expression ++ collectTestLensesOfStatements before rest
  | .item _ :: rest => collectTestLensesOfStatements before rest

end

/-- The lenses of a document with these test blocks. -/
def testLenses (blocks : List Expression) : List TestLens :=
  collectTestLensesOfAll "" blocks

end Quilon.Testing
