import SpmdArrays.Catalog.Basic
import SpmdArrays.Json.Value

/-!
Catalogs from JSON: an object of sources, each an object of datasets. A dataset
is an object with an element type and a shape, or an array of the two. Of
sources and datasets with the same name the last one counts.
-/

namespace SpmdArrays

/-- An element type by its code, alone or as the key of a null. -/
def ElementType.ofValue? : Json.Value → Option ElementType
  | .string (some code) => ofCode? code
  | .object [(some code, .null)] => ofCode? code
  | _ => none

def shapeOfValue? : Json.Value → Option (List Nat)
  | .array extents => extents.mapM (Json.Value.natBelow? (Nat.pow 2 64))
  | _ => none

/-- The value of a member that has to be there exactly once. -/
def onlyMember? (members : List (String × Json.Value)) (name : String) : Option Json.Value :=
  match members.filter fun m => m.1 == name with
  | [m] => some m.2
  | _ => none

/-- Members whose keys all denote texts. -/
def namedMembers? (members : List Json.Member) : Option (List (String × Json.Value)) :=
  members.mapM fun m => m.1.map (·, m.2)

/-- Other members of a dataset than its element type and shape do not matter. -/
def DatasetInfo.ofValue? : Json.Value → Option DatasetInfo
  | .array [elem, shape] => do return ⟨← ElementType.ofValue? elem, ← shapeOfValue? shape⟩
  | .object members => do
    let named ← namedMembers? members
    return ⟨← ElementType.ofValue? (← onlyMember? named "dtype"),
      ← shapeOfValue? (← onlyMember? named "shape")⟩
  | _ => none

def datasetsOfValue? : Json.Value → Option (Std.TreeMap String DatasetInfo)
  | .object members => do
    (← namedMembers? members).foldlM
      (fun datasets m => do return datasets.insert m.1 (← DatasetInfo.ofValue? m.2)) {}
  | _ => none

def Catalog.ofValue? : Json.Value → Option Catalog
  | .object members => do
    let sources ← (← namedMembers? members).foldlM
      (fun (sources : Std.TreeMap String (Std.TreeMap String DatasetInfo)) m => do
        return sources.insert m.1 (← datasetsOfValue? m.2))
      {}
    return ⟨sources⟩
  | _ => none

def Catalog.ofJson (text : String) : Except CatalogError Catalog :=
  match Json.parse? text >>= ofValue? with
  | some c => .ok c
  | none => .error .malformed

end SpmdArrays
