import SpmdArrays.ElementType
import SpmdArrays.Program.Literal
import SpmdArrays.Program.Var

/-!
Statements of an array program. Expressions only look at variables; whatever
reaches outside is a call, which is a statement of its own. A block is a
straight line of statements and one terminator, and all edges of the block
graph come from terminators. Expressions and statements list the variables that
they read, in the order of their operands.
-/

namespace SpmdArrays

/-- Right-hand sides of assignments. -/
inductive Expr where
  | global (name : ModuleName)
  | attr (base : Var) (name : String)
  /-- An item under a constant index; `indexVar` holds the same constant if it
  was given a name. -/
  | constItem (base : Var) (index : Literal) (indexVar : Option Var)
  | item (base index : Var)
  | tuple (items : List Var)
  | const (value : Literal)
  | copy (source : Var)
  /-- A fresh row-major buffer of the given extents. -/
  | alloc (shape : List Var) (elem : ElementType)
  deriving DecidableEq, Repr

namespace Expr

def uses : Expr → List Var
  | .global _ | .const _ => []
  | .attr base _ => [base]
  | .constItem base _ indexVar => base :: indexVar.toList
  | .item base index => [base, index]
  | .tuple items => items
  | .copy source => [source]
  | .alloc shape _ => shape

end Expr

inductive Stmt where
  | assign (target : Var) (value : Expr)
  | call (target callee : Var) (args : List Var) (kws : List (String × Var))
  /-- Stores into an item of `target` under a constant index. -/
  | store (target : Var) (index : Literal) (value : Var)
  deriving DecidableEq, Repr

namespace Stmt

def loc : Stmt → Loc
  | .assign target _ | .call target .. | .store target .. => target.loc

def uses : Stmt → List Var
  | .assign _ value => value.uses
  | .call _ callee args kws => callee :: (args ++ kws.map Prod.snd)
  | .store target _ value => [target, value]

def target? : Stmt → Option Var
  | .assign target _ | .call target .. => some target
  | .store .. => none

/-- Statements that stay whatever becomes of their target. -/
def hasEffect : Stmt → Bool
  | .assign .. => false
  | .call .. | .store .. => true

def keyword? (s : Stmt) (name : String) : Option Var :=
  match s with
  | .call _ _ _ kws => kws.lookup name
  | _ => none

end Stmt

/-- Blocks are numbered from zero in the order of their creation. -/
abbrev Label := Nat

def labelText (l : Label) : String := "block" ++ toString l

inductive Terminator where
  | jump (target : Label)
  | branch (cond : Var) (ifTrue ifFalse : Label)
  | ret (value : Option Var)
  deriving DecidableEq, Repr

namespace Terminator

def successors : Terminator → List Label
  | .jump target => [target]
  | .branch _ ifTrue ifFalse => [ifTrue, ifFalse]
  | .ret _ => []

def uses : Terminator → List Var
  | .jump _ => []
  | .branch cond _ _ => [cond]
  | .ret value => value.toList

end Terminator

structure Block where
  body : List Stmt := []
  term : Terminator := .ret none
  deriving DecidableEq, Repr

def Block.defs (b : Block) : List String :=
  b.body.filterMap fun s => s.target?.map Var.name

end SpmdArrays
