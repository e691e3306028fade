import SpmdArrays.Catalog.BySource
import SpmdArrays.ElementType

/-!
A catalog says which datasets a source holds, with the element type and the
extents of each. Looking a dataset up gives its array type.
-/

namespace SpmdArrays

structure DatasetInfo where
  elem : ElementType
  shape : List Nat
  deriving DecidableEq, Repr

namespace DatasetInfo

def arrayType (d : DatasetInfo) : ArrayType := ⟨d.elem, d.shape.length⟩

def size (d : DatasetInfo) : Except Fault Int := Word.u64.product (d.shape.map Int.ofNat)

end DatasetInfo

abbrev Catalog := BySource DatasetInfo

/-- Why a dataset could not be described. -/
inductive CatalogError where
  | sourceNotFound (source : String)
  | datasetNotFound (source dataset : String)
  | malformed
  deriving DecidableEq, Repr

def CatalogError.message : CatalogError → String
  | .sourceNotFound source => "cannot open source '" ++ source ++ "' for inspection"
  | .datasetNotFound source dataset =>
    "source '" ++ source ++ "' has no dataset '" ++ dataset ++ "'"
  | .malformed => "malformed catalog description"

/-- The array type of a dataset; an unknown source is told apart from an
unknown dataset. -/
def Catalog.inspect (c : Catalog) (source dataset : String) : Except CatalogError ArrayType :=
  match c.sources[source]? with
  | none => .error (.sourceNotFound source)
  | some datasets =>
    match datasets[dataset]? with
    | none => .error (.datasetNotFound source dataset)
    | some info => .ok info.arrayType

/-- What tells the types of datasets before a program runs: a catalog, or anything else that
looks into the sources. -/
abbrev Inspector := String → String → Except CatalogError ArrayType

instance : Coe (Option Catalog) (Option Inspector) := ⟨Option.map Catalog.inspect⟩

end SpmdArrays
