import SpmdArrays.Llvm.Module

/-!
Code under construction: a module and one function of it that is still open.
Registers and labels are numbered in the order in which they are asked for.
What was emitted before an error stays.
-/

namespace SpmdArrays.Llvm

/-- A function that is still open. Its numbers have no upper bound; counted in 32 bits they are
the same as long as fewer than 4294967296 registers and labels are asked for. -/
structure Draft where
  definition : Definition
  nextRegister : Nat := 0
  nextLabel : Nat := 0
  deriving DecidableEq, Repr

/-- An open function with the given parameters and no code. -/
def Draft.start (name : String) (ret : Ty) (params : List (Ty × String))
    (internal : Bool) : Draft where
  definition :=
    { name, internal
      sig := ⟨ret, params.map Prod.fst⟩
      params := params.map fun p => ⟨p.1, .param p.2⟩ }

structure Session where
  module : Module
  draft : Draft
  deriving DecidableEq, Repr

/-- Computations that emit code and may fail. -/
abbrev Emit (ε : Type) := EStateM ε Session

namespace Session

def push (s : Session) (i : Instr) : Session :=
  { s with draft.definition.body := s.draft.definition.body.push i }

def pushSlot (s : Session) (i : Instr) : Session :=
  { s with draft.definition.slots := s.draft.definition.slots.push i }

def takeRegister (s : Session) : Session :=
  { s with draft.nextRegister := s.draft.nextRegister + 1 }

end Session

namespace Emit

variable {ε : Type}

def run (i : Instr) : Emit ε Unit := fun s => .ok () (s.push i)

/-- Emits an instruction whose result goes to a new register. -/
def define (type : Ty) (i : Nat → Instr) : Emit ε Operand := fun s =>
  .ok (.register type s.draft.nextRegister) ((s.push (i s.draft.nextRegister)).takeRegister)

/-- A new label: the hint and the next number. -/
def newLabel (hint : String) : Emit ε String := fun s =>
  .ok (hint ++ toString s.draft.nextLabel)
    { s with draft.nextLabel := s.draft.nextLabel + 1 }

def label (name : String) : Emit ε Unit := run (.label name)

/-- A stack slot at the start of the entry block, wherever it is asked for. -/
def alloca (type : Ty) : Emit ε Operand := fun s =>
  .ok (.register .ptr s.draft.nextRegister)
    ((s.pushSlot (.alloca s.draft.nextRegister type)).takeRegister)

def store (value ptr : Operand) : Emit ε Unit := run (.store value ptr)

def load (type : Ty) (ptr : Operand) : Emit ε Operand :=
  define type fun dst => .load dst type ptr

def gep (elem : Ty) (ptr : Operand) (indices : List Operand) : Emit ε Operand :=
  define .ptr fun dst => .gep dst elem ptr indices

def add (lhs rhs : Operand) : Emit ε Operand :=
  define lhs.type fun dst => .binary dst (.addOf lhs.type) lhs rhs

def mul (lhs rhs : Operand) : Emit ε Operand :=
  define lhs.type fun dst => .binary dst (.mulOf lhs.type) lhs rhs

def icmp (pred : String) (lhs rhs : Operand) : Emit ε Operand :=
  define .i1 fun dst => .icmp dst pred lhs rhs

def select (cond ifTrue ifFalse : Operand) : Emit ε Operand :=
  define ifTrue.type fun dst => .select dst cond ifTrue ifFalse

def br (target : String) : Emit ε Unit := run (.br target)

def condBr (cond : Operand) (ifTrue ifFalse : String) : Emit ε Unit :=
  run (.condBr cond ifTrue ifFalse)

def ret (value : Option Operand) : Emit ε Unit := run (.ret value)

def declare (name : String) (sig : Signature) : Emit Error Unit := fun s =>
  match s.module.declare name sig with
  | .ok m => .ok () { s with module := m }
  | .error e => .error e s

/-- Calls a symbol under a signature. A conflict of signatures emits nothing. -/
def call (callee : String) (sig : Signature) (args : List Operand) : Emit Error Operand := do
  declare callee sig
  if sig.ret = .void then
    run (.call none callee sig args)
    return .void
  else define sig.ret fun dst => .call (some dst) callee sig args

def finish : Emit Error Unit := fun s =>
  match s.module.define s.draft.definition with
  | (.ok (), m) => .ok () { s with module := m }
  | (.error e, m) => .error e { s with module := m }

end Emit

end SpmdArrays.Llvm
