import SpmdArrays.Exec.Error
import SpmdArrays.FileCalls.Error
import SpmdArrays.Lowering.Error

/-!
All errors of the library under one roof, with a stable code and a message that
says which part they come from.
-/

namespace SpmdArrays

inductive Diagnostic where
  | files (e : FileError)
  | lowering (e : Lowering.Error)
  | llvm (e : Llvm.Error)
  | run (e : RunError)
  | catalog (e : CatalogError)
  | settings

namespace Diagnostic

def code : Diagnostic → String
  | .files ⟨_, _, .typeUnresolved ..⟩ => "E0100"
  | .files ⟨_, _, .unsupported _⟩ => "E0101"
  | .files ⟨_, _, .missingArgument ..⟩ => "E0102"
  | .lowering (.unsupportedType ..) => "E0200"
  | .lowering (.invalidOperand ..) => "E0201"
  | .lowering (.llvm _) => "E0300"
  | .llvm _ => "E0300"
  | .run (.callFailed ..) => "E0400"
  | .run _ => "E0401"
  | .catalog _ => "E0500"
  | .settings => "E0600"

def message : Diagnostic → String
  | .files e => "[rewrite error] " ++ e.message
  | .lowering e => "[lowering error] " ++ e.message
  | .llvm e => "[codegen error] " ++ e.message
  | .run e => "[runtime error] " ++ e.message
  | .catalog e => "[catalog error] " ++ e.message
  | .settings => "invalid configuration"

end Diagnostic

end SpmdArrays
