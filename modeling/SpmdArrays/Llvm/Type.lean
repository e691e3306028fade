import SpmdArrays.ElementType

/-!
The LLVM types that lowered code uses, and function signatures.
-/

namespace SpmdArrays.Llvm

inductive Ty where
  | void
  | i1
  | i8
  | i32
  | i64
  | float
  | double
  | ptr
  | array (n : Nat) (elem : Ty)
  deriving DecidableEq, Repr

namespace Ty

/-- The type in which an array element is stored. -/
def ofElement : ElementType → Ty
  | .int8 | .uint8 => .i8
  | .int32 | .uint32 => .i32
  | .int64 | .uint64 => .i64
  | .float32 => .float
  | .float64 => .double

def isFloat : Ty → Bool
  | .float | .double => true
  | _ => false

def isInt : Ty → Bool
  | .i1 | .i8 | .i32 | .i64 => true
  | _ => false

def text : Ty → String
  | .void => "void"
  | .i1 => "i1"
  | .i8 => "i8"
  | .i32 => "i32"
  | .i64 => "i64"
  | .float => "float"
  | .double => "double"
  | .ptr => "ptr"
  | .array n elem => "[" ++ toString n ++ " x " ++ elem.text ++ "]"

end Ty

structure Signature where
  ret : Ty
  params : List Ty
  deriving DecidableEq, Repr

namespace Signature

def paramsText (s : Signature) : String := ", ".intercalate (s.params.map Ty.text)

def text (s : Signature) : String := s.ret.text ++ " (" ++ s.paramsText ++ ")"

end Signature

end SpmdArrays.Llvm
