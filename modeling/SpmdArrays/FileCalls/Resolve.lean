import SpmdArrays.FileCalls.Error
import SpmdArrays.FileCalls.Facts

/-!
Element type and rank of a dataset that is read or written. A declaration of
the variable decides, then a declaration of the name it is copied into, then
the catalog.
-/

namespace SpmdArrays

/-- What stays the same while the file calls of a function are looked at. -/
structure FileScope where
  func : String
  scope : Nat := 0
  locals : Locals := {}
  /-- Absent when sources may not be looked into before the program runs. -/
  catalog : Option Inspector := none

namespace FileScope

def fail {α : Type} (c : FileScope) (loc : Loc) (problem : FileProblem) : Except FileError α :=
  .error ⟨c.func, loc, problem⟩

/-- The declaration of a variable or of the name it is copied into. -/
def declared? (c : FileScope) (facts : Facts) (v : Var) : Option ArrayType :=
  match c.locals[v.name]? with
  | some t => some t
  | none => (facts.about v.name).copiedTo.bind fun copy => c.locals[copy]?

def introspect (c : FileScope) (facts : Facts) (v : Var) (d : DatasetRef) :
    Except FileError ArrayType :=
  let unresolved cause := c.fail v.loc (.typeUnresolved v.name cause)
  if (facts.about d.file.name).file = some .group then unresolved .inGroup
  else
    match facts.sourceName? d.file, (facts.about d.name.name).str with
    | some source, some dataset =>
      match c.catalog with
      | none => unresolved .noCatalog
      | some inspect =>
        match inspect source dataset with
        | .ok t => .ok t
        | .error e => unresolved (.catalog e)
    | _, _ => unresolved .unknownName

def resolve (c : FileScope) (facts : Facts) (v : Var) (d : DatasetRef) :
    Except FileError ArrayType :=
  match c.declared? facts v with
  | some t => .ok t
  | none => c.introspect facts v d

end FileScope

end SpmdArrays
