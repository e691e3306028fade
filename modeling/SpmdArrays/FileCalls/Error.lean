import SpmdArrays.Catalog.Basic
import SpmdArrays.Program.Statement

/-!
Why the file calls of a function could not be made positional. Every error
names the function and the place, and its cause is kept as data.
-/

namespace SpmdArrays

/-- Why element type and rank of a dataset are not known. -/
inductive UnresolvedCause where
  | inGroup
  | unknownName
  | noCatalog
  | catalog (e : CatalogError)
  | note (text : String)
  deriving DecidableEq, Repr

def UnresolvedCause.text : UnresolvedCause → String
  | .inGroup => "the dataset belongs to a group, whose source cannot be opened at compile time"
  | .unknownName => "the file or dataset name is not a compile-time constant"
  | .noCatalog => "compile-time introspection is disabled"
  | .catalog e => e.message
  | .note text => text

/-- File operations that have no positional form. -/
inductive FileOpCause where
  | partialRead (dataset : String) (index : Literal)
  | dynamicItem (dataset : String)
  | storeIntoFile (file : String)
  | partialWrite (dataset : String) (index : Literal)
  | attribute (name file : String)
  | key (file : String) (index : Literal)
  | shapeNotTuple (shape : String)
  | note (text : String)
  deriving DecidableEq, Repr

def FileOpCause.text : FileOpCause → String
  | .partialRead dataset index =>
    "reading '" ++ dataset ++ "[" ++ index.text ++
      "]'; only full-slice reads `x = d[:]` are supported"
  | .dynamicItem dataset => "dynamic indexing of dataset '" ++ dataset ++ "'"
  | .storeIntoFile file => "assigning into file handle '" ++ file ++ "'; use create_dataset"
  | .partialWrite dataset index =>
    "writing '" ++ dataset ++ "[" ++ index.text ++
      "]'; only full-slice writes `d[:] = a` are supported"
  | .attribute name file => "attribute '" ++ name ++ "' of file handle '" ++ file ++ "'"
  | .key file index =>
    "indexing file handle '" ++ file ++ "' with " ++ index.text ++ "; expected a dataset name"
  | .shapeNotTuple shape =>
    "shape '" ++ shape ++ "' of create_dataset is not a tuple built in this function"
  | .note text => text

inductive FileProblem where
  | typeUnresolved (var : String) (cause : UnresolvedCause)
  | unsupported (cause : FileOpCause)
  | missingArgument (call arg : String)
  deriving DecidableEq, Repr

def FileProblem.text : FileProblem → String
  | .typeUnresolved var cause =>
    "cannot determine the element type and rank of '" ++ var ++ "': " ++ cause.text ++
      ". Declare its type explicitly"
  | .unsupported cause => "unsupported file operation: " ++ cause.text
  | .missingArgument call arg => "'" ++ call ++ "' requires the '" ++ arg ++ "' argument"

structure FileError where
  func : String
  loc : Loc
  problem : FileProblem
  deriving DecidableEq, Repr

def FileError.message (e : FileError) : String :=
  "in function '" ++ e.func ++ "' at " ++ e.loc.text ++ ": " ++ e.problem.text

end SpmdArrays
