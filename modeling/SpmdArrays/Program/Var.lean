/-!
Variables and the places in a source text that they come from. A variable is
known by its scope and its name; the place is carried along for diagnostics
only. Names that start with a dollar sign belong to the compiler.
-/

namespace SpmdArrays

/-- A place in a source text. -/
structure Loc where
  line : Nat
  column : Nat
  deriving DecidableEq, Repr, Inhabited

def Loc.text (l : Loc) : String :=
  "line " ++ toString l.line ++ ", column " ++ toString l.column

structure Var where
  scope : Nat := 0
  name : String
  loc : Loc
  deriving DecidableEq, Repr

namespace Var

/-- What tells two variables apart. -/
def key (v : Var) : Nat × String := (v.scope, v.name)

/-- The name belongs to the compiler. -/
def isTemp (v : Var) : Bool := v.name.toList.head? == some '$'

/-- The name of the compiler temporary with the given stem and number. -/
def tempName (stem : String) (number : Nat) : String :=
  "$" ++ stem ++ "." ++ toString number

end Var

end SpmdArrays
