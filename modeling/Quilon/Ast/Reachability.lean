import Quilon.Ast.Nodes
import Quilon.Library.Worklist

/-!
# Which top-level functions a program can reach

`src/ast/reachability.rs`: the names mentioned anywhere in code that is emitted unconditionally,
closed under the bodies of the functions they name.  A list stands for the `Vec` of pending names,
its last element first, and for the `HashSet` of reached ones.
-/

namespace Quilon

mutual

/-- The names `expression` mentions, in the order they are pushed. -/
def mentions : Expression → List String
  | .identifier name _ =>
    if name = RECEIVER then []
    else match qnTextImpl name with
      | some implementation => [name, implementation]
      | none => [name]
  | .number _ _ | .string _ _ | .bool _ _ | .unit _ => []
  | .interpolation parts _ => "`" :: mentionsParts parts
  | .binaryOperator left operator right _ => operator.symbol :: (mentions left ++ mentions right)
  | .unaryOperator operator expression _ =>
    match operator with
    | .neg => BinaryOperator.sub.symbol :: mentions expression
    | .not => mentions expression
  | .range left right _ | .fieldAssign left right _ | .indexAssign left right _
  | .index left right _ => mentions left ++ mentions right
  | .fieldAccess expression field _ => field :: mentions expression
  | .call function arguments _ _ =>
    -- `mentions_callee`: only a called `it` can name a top-level function.
    (match function with
      | .identifier name span => if name = RECEIVER then [name] else mentions (.identifier name span)
      | other => mentions other) ++ mentionsAll arguments
  | .lambda _ _ body _ => mentions body
  | .block statements _ => mentionsStatements statements
  | .ifThenElse condition then_ else_ _ => mentions condition ++ mentions then_ ++ mentions else_
  | .match_ expression arms _ => mentions expression ++ mentionsArms arms
  | .array elements _ => mentionsAll elements
  | .mapLiteral entries _ => mentionsEntries entries
  | .setLiteral elements _ => mentionsAll elements
  | .record fields _ => mentionsFields fields
  | .constructor typeName fields _ => typeName :: mentionsFields fields
  | .spread expression _ => mentions expression

def mentionsAll : List Expression → List String
  | [] => []
  | expression :: rest => mentions expression ++ mentionsAll rest

def mentionsParts : List InterpolationPart → List String
  | [] => []
  | .literal _ :: rest => mentionsParts rest
  | .hole expression :: rest => mentions expression ++ mentionsParts rest

def mentionsEntries : List (Expression × Expression) → List String
  | [] => []
  | (key, value) :: rest => mentions key ++ mentions value ++ mentionsEntries rest

def mentionsFields : List (String × Expression) → List String
  | [] => []
  | (_, value) :: rest => mentions value ++ mentionsFields rest

def mentionsArms : List MatchArm → List String
  | [] => []
  | ⟨_, body, _⟩ :: rest => mentions body ++ mentionsArms rest

def mentionsStatements : List Statement → List String
  | [] => []
  | .expression expression :: rest => mentions expression ++ mentionsStatements rest
  | .item (.variableDeclaration ⟨_, _, _, value, _, _, _⟩) :: rest =>
    mentions value ++ mentionsStatements rest
  | .item (.functionDeclaration ⟨_, _, _, _, body, _, _, _⟩) :: rest =>
    mentions body ++ mentionsStatements rest
  | .item (.typeDeclaration ⟨_, .sum _ methods, _, _⟩) :: rest
  | .item (.typeDeclaration ⟨_, .record _ methods, _, _⟩) :: rest =>
    mentionsMethods methods ++ mentionsStatements rest
  | .item (.trapDeclaration _) :: rest => mentionsStatements rest

def mentionsMethods : List MethodDeclaration → List String
  | [] => []
  | ⟨_, _, _, body, _, _⟩ :: rest => mentions body ++ mentionsMethods rest

end

/-- The mentions of an expression in callee position. -/
def mentionsCallee : Expression → List String
  | .identifier name span => if name = RECEIVER then [name] else mentions (.identifier name span)
  | other => mentions other

theorem mentions_call (function : Expression) (arguments : List Expression) (memberCall : Bool)
    (span : Span) :
    mentions (.call function arguments memberCall span) =
      mentionsCallee function ++ mentionsAll arguments := by
  cases function <;> simp only [mentions, mentionsCallee]

/-- A declared function that is reachable by definition: an export of the program's own files. -/
def FunctionDeclaration.isOwnExport (declaration : FunctionDeclaration) : Bool :=
  declaration.exported && !declaration.fromCorelib

def Item.isEntry : Item → Bool
  | .functionDeclaration declaration => declaration.name == "^"
  | _ => false

/-- `has_root`: there is a `^`, or an export of the program's own. -/
def hasRoot (program : Program) : Bool :=
  program.items.any fun
    | .functionDeclaration declaration => declaration.name == "^" || declaration.isOwnExport
    | _ => false

/-- What the pass over the items pushes for one of them. -/
def Item.rootMentions : Item → List String
  | .functionDeclaration declaration =>
    if declaration.isOwnExport then [declaration.name] else []
  | .variableDeclaration declaration => mentions declaration.value
  | .typeDeclaration declaration => mentionsMethods declaration.typeDefinition.methods
  | .trapDeclaration declaration => mentionsArms declaration.arms

/-- `pending` before the worklist loop, in the order pushed. -/
def rootNames (program : Program) : List String :=
  (if program.items.any Item.isEntry then ["^"] else []) ++ program.items.flatMap Item.rootMentions

/-- The top-level functions, every member of an overload set. -/
def Program.functions (program : Program) : List FunctionDeclaration :=
  program.items.filterMap fun
    | .functionDeclaration declaration => some declaration
    | _ => none

/-- `defined.get(name)`, walked: what the bodies of the functions called `name` mention. -/
def definedMentions (program : Program) (name : String) : List String :=
  (program.functions.filter (·.name == name)).flatMap fun declaration => mentions declaration.body

/-- The worklist loop; `none` when it has not ended within `fuel` rounds. -/
def reachLoop (program : Program) (fuel : Nat) : Option (List String) :=
  Worklist.run (definedMentions program) fuel (rootNames program).reverse []

/-- Rounds enough to empty the worklist. -/
def reachBound (program : Program) : Nat :=
  Worklist.potential (definedMentions program) (program.functions.map (·.name))
    (rootNames program).reverse [] + 1

/-- `none` means "prune nothing". -/
def reachableFunctions (program : Program) : Option (List String) :=
  if hasRoot program then reachLoop program (reachBound program) else none

end Quilon
