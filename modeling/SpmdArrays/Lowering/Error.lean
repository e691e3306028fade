import SpmdArrays.Llvm.Module

/-!
Why a distributed primitive could not be lowered.
-/

namespace SpmdArrays.Lowering

open Llvm (Ty)

/-- What is wrong with an operand. -/
inductive OperandCause where
  | dataNotPointer (got : Ty)
  | extentType (got : Ty)
  | indexCount (indices rank : Nat)
  | indexType (got : Ty)
  | wrongType (operand : String) (expected got : Ty)
  | elements (input output : ElementType)
  | note (text : String)
  deriving DecidableEq, Repr

def OperandCause.text : OperandCause → String
  | .dataNotPointer got => "array data must be a pointer, got '" ++ got.text ++ "'"
  | .extentType got => "array extents must be i64, got '" ++ got.text ++ "'"
  | .indexCount indices rank =>
    toString indices ++ " indices for an array of rank " ++ toString rank
  | .indexType got => "indices must be i64, got '" ++ got.text ++ "'"
  | .wrongType operand expected got =>
    operand ++ " must be '" ++ expected.text ++ "', got '" ++ got.text ++ "'"
  | .elements input output => "input is " ++ input.name ++ " but output is " ++ output.name
  | .note text => text

inductive Error where
  | unsupportedType (primitive : String) (type : String)
  | invalidOperand (primitive : String) (cause : OperandCause)
  | llvm (e : Llvm.Error)
  deriving DecidableEq, Repr

def Error.message : Error → String
  | .unsupportedType primitive type =>
    "'" ++ primitive ++ "' has no native entry point for values of type '" ++ type ++ "'"
  | .invalidOperand primitive cause =>
    "invalid operand for '" ++ primitive ++ "': " ++ cause.text
  | .llvm e => e.message

end SpmdArrays.Lowering
