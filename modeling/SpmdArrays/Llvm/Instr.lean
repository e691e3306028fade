import SpmdArrays.Llvm.Type

/-!
Operands and instructions. Code is kept as data and turned into text only when
a module is written out.
-/

namespace SpmdArrays.Llvm

/-- What an operand consists of apart from its type. -/
inductive Atom where
  /-- The result of an earlier instruction. -/
  | register (n : Nat)
  /-- A parameter of the function. -/
  | param (name : String)
  | int (v : Int)
  | bool (b : Bool)
  /-- The floating-point zero. -/
  | floatZero
  | null
  /-- What a call of a void function leaves. -/
  | absent
  /-- Text that someone else vouches for. -/
  | verbatim (text : String)
  deriving DecidableEq, Repr

def Atom.text : Atom → String
  | .register n => "%t" ++ toString n
  | .param name => "%" ++ name
  | .int v => toString v
  | .bool b => toString b
  | .floatZero => "0.0"
  | .null => "null"
  | .absent => ""
  | .verbatim text => text

structure Operand where
  type : Ty
  atom : Atom
  deriving DecidableEq, Repr

namespace Operand

def register (type : Ty) (n : Nat) : Operand := ⟨type, .register n⟩

def int (type : Ty) (v : Int) : Operand := ⟨type, .int v⟩

def i32 (v : Int) : Operand := int .i32 v

def i64 (v : Int) : Operand := int .i64 v

def bool (b : Bool) : Operand := ⟨.i1, .bool b⟩

def void : Operand := ⟨.void, .absent⟩

/-- The neutral element of addition. -/
def zero (type : Ty) : Operand :=
  match type with
  | .float | .double => ⟨type, .floatZero⟩
  | .ptr => ⟨type, .null⟩
  | _ => int type 0

/-- Type and value, as in a list of operands. -/
def text (o : Operand) : String := o.type.text ++ " " ++ o.atom.text

def listText (os : List Operand) : String := ", ".intercalate (os.map text)

end Operand

inductive BinaryOp where
  | add
  | fadd
  | mul
  | fmul
  deriving DecidableEq, Repr

namespace BinaryOp

def text : BinaryOp → String
  | .add => "add"
  | .fadd => "fadd"
  | .mul => "mul"
  | .fmul => "fmul"

def addOf (type : Ty) : BinaryOp := if type.isFloat then .fadd else .add

def mulOf (type : Ty) : BinaryOp := if type.isFloat then .fmul else .mul

end BinaryOp

/-- Instructions; `dst` is the number of the register that takes the result. -/
inductive Instr where
  | call (dst : Option Nat) (callee : String) (sig : Signature) (args : List Operand)
  | alloca (dst : Nat) (type : Ty)
  | store (value ptr : Operand)
  | load (dst : Nat) (type : Ty) (ptr : Operand)
  | gep (dst : Nat) (elem : Ty) (ptr : Operand) (indices : List Operand)
  | binary (dst : Nat) (op : BinaryOp) (lhs rhs : Operand)
  | icmp (dst : Nat) (pred : String) (lhs rhs : Operand)
  | select (dst : Nat) (cond ifTrue ifFalse : Operand)
  | br (target : String)
  | condBr (cond : Operand) (ifTrue ifFalse : String)
  | ret (value : Option Operand)
  /-- The start of a basic block. -/
  | label (name : String)
  deriving DecidableEq, Repr

namespace Instr

def dst? : Instr → Option Nat
  | .call dst _ _ _ => dst
  | .alloca dst _ | .load dst _ _ | .gep dst _ _ _ | .binary dst _ _ _ | .icmp dst _ _ _
  | .select dst _ _ _ => some dst
  | .store .. | .br _ | .condBr .. | .ret _ | .label _ => none

def operands : Instr → List Operand
  | .call _ _ _ args => args
  | .alloca .. | .br _ | .label _ => []
  | .store value ptr => [value, ptr]
  | .load _ _ ptr => [ptr]
  | .gep _ _ ptr indices => ptr :: indices
  | .binary _ _ lhs rhs | .icmp _ _ lhs rhs => [lhs, rhs]
  | .select _ cond ifTrue ifFalse => [cond, ifTrue, ifFalse]
  | .condBr cond _ _ => [cond]
  | .ret value => value.toList

def definesText (dst : Nat) : String := "  " ++ (Atom.register dst).text ++ " = "

/-- One line of assembly text, without its end. -/
def text : Instr → String
  | .call none callee _ args => "  call void @" ++ callee ++ "(" ++ Operand.listText args ++ ")"
  | .call (some dst) callee sig args =>
    definesText dst ++ "call " ++ sig.ret.text ++ " @" ++ callee ++ "(" ++
      Operand.listText args ++ ")"
  | .alloca dst type => definesText dst ++ "alloca " ++ type.text
  | .store value ptr => "  store " ++ value.text ++ ", " ++ ptr.text
  | .load dst type ptr => definesText dst ++ "load " ++ type.text ++ ", " ++ ptr.text
  | .gep dst elem ptr indices =>
    definesText dst ++ "getelementptr inbounds " ++ elem.text ++ ", " ++ ptr.text ++ ", " ++
      Operand.listText indices
  | .binary dst op lhs rhs =>
    definesText dst ++ op.text ++ " " ++ lhs.text ++ ", " ++ rhs.atom.text
  | .icmp dst pred lhs rhs =>
    definesText dst ++ "icmp " ++ pred ++ " " ++ lhs.text ++ ", " ++ rhs.atom.text
  | .select dst cond ifTrue ifFalse =>
    definesText dst ++ "select " ++ cond.text ++ ", " ++ ifTrue.text ++ ", " ++ ifFalse.text
  | .br target => "  br label %" ++ target
  | .condBr cond ifTrue ifFalse =>
    "  br " ++ cond.text ++ ", label %" ++ ifTrue ++ ", label %" ++ ifFalse
  | .ret (some value) => "  ret " ++ value.text
  | .ret none => "  ret void"
  | .label name => name ++ ":"

end Instr

end SpmdArrays.Llvm
