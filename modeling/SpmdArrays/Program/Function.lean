import SpmdArrays.Program.Statement

/-!
A function is a numbered list of blocks with an entry label, the names of its
parameters and the types declared for its locals. It also counts the
temporaries handed out so far, so that every later one has a new number.
-/

namespace SpmdArrays

structure Function where
  name : String
  params : List String := []
  scope : Nat := 0
  entry : Label := 0
  locals : Locals := {}
  blocks : Array Block := #[{}]
  /-- Without an upper bound; counted in 32 bits it is the same for the first 4294967295
  temporaries. -/
  nextTemp : Nat := 0

namespace Function

def block? (f : Function) (l : Label) : Option Block := f.blocks[l]?

/-- Labels that follow a block; a label without a block has none. -/
def successors (f : Function) (l : Label) : List Label :=
  match f.block? l with
  | some b => b.term.successors
  | none => []

def fresh (f : Function) (stem : String) (loc : Loc) : Var × Function :=
  (⟨f.scope, Var.tempName stem f.nextTemp, loc⟩, { f with nextTemp := f.nextTemp + 1 })

end Function

/-- A function under construction. Statements go to the current block, and each
of them takes one line of a synthetic source text. -/
structure FunctionBuilder where
  func : Function
  current : Label := 0
  line : Nat := 1

namespace FunctionBuilder

/-- A new function has its entry block, which returns nothing. -/
def start (name : String) : FunctionBuilder := { func := { name } }

def here (b : FunctionBuilder) : Loc := ⟨b.line, 1⟩

def param (b : FunctionBuilder) (name : String) : FunctionBuilder :=
  { b with func := { b.func with params := b.func.params ++ [name] } }

def declare (b : FunctionBuilder) (name : String) (type : ArrayType) : FunctionBuilder :=
  { b with func := { b.func with locals := b.func.locals.insert name type } }

def addBlock (b : FunctionBuilder) : FunctionBuilder :=
  { b with func := { b.func with blocks := b.func.blocks.push {} } }

def moveTo (b : FunctionBuilder) (l : Label) : FunctionBuilder := { b with current := l }

def push (b : FunctionBuilder) (s : Stmt) : FunctionBuilder :=
  { b with
    func := { b.func with
      blocks := b.func.blocks.modify b.current fun k => { k with body := k.body ++ [s] } }
    line := b.line + 1 }

def terminate (b : FunctionBuilder) (t : Terminator) : FunctionBuilder :=
  { b with
    func := { b.func with
      blocks := b.func.blocks.modify b.current fun k => { k with term := t } } }

end FunctionBuilder

end SpmdArrays
