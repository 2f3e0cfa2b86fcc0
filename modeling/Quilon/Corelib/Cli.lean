import Quilon.Corelib.Text

/-!
# Options of the command line

`getOpt` of `corelib/cli.qn`, over the array of arguments the program was started with.  A `Result`
is `ok` or `error`; a call that would end the program is `none`.
-/

namespace Quilon.Cli

open Text

variable (unicode : Unicode)

/-- `lo <- hi`, where both are integers. -/
def range (lo hi : Int) : List Int :=
  if lo ≤ hi then (List.range (hi - lo + 1).toNat).map fun (i : Nat) => lo + i
  else (List.range (lo - hi + 1).toNat).map fun (i : Nat) => lo - i

/-- `args[i]` -/
def element (args : List QnSlice) (i : Int) : Option QnSlice :=
  if i < 0 then none else args[i.toNat]?

def wanted (name : QnSlice) : Option QnSlice := do
  if (← name.slice unicode 0 2).equals (literal unicode "--") then return name
  else return (literal unicode "--").append unicode name

def optKey (tok : QnSlice) : Option QnSlice := do
  match ← tok.indexOf unicode (literal unicode "=") with
  | some p => tok.slice unicode 0 p
  | none => return tok

def optVal (tok : QnSlice) : Option QnSlice := do
  match ← tok.indexOf unicode (literal unicode "=") with
  | some p => tok.slice unicode (p + 1) tok.size
  | none => return literal unicode ""

/-- The local `matches` of `getOpt`. -/
def namesOption (name wanted tok : QnSlice) : Option Bool := do
  let key ← optKey unicode tok
  return key.equals name || key.equals wanted

/-- What the fold of `getOpt` does at an index. -/
def collect (args : List QnSlice) (name wanted : QnSlice) (acc : List QnSlice) (i : Int) :
    Option (List QnSlice) := do
  let tok ← element args i
  if ← namesOption unicode name wanted tok then
    if ← tok.contains unicode (literal unicode "=") then return acc ++ [← optVal unicode tok]
    else if i + 1 < args.length then return acc ++ [← element args (i + 1)]
    else return acc
  else return acc

def getOpt (args : List QnSlice) (name : QnSlice) : Option (Except QnSlice (List QnSlice)) := do
  let wanted ← wanted unicode name
  let idx := (range 0 (args.length - 1)).filter fun i => 0 < i
  let empty := args.filter fun _ => false
  let vals ← idx.foldlM (collect unicode args name wanted) empty
  return if 0 < vals.length then .ok vals else .error name

end Quilon.Cli
