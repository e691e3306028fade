import SpmdArrays.Catalog.Basic
import SpmdArrays.Device.Request
import SpmdArrays.Store.Slab

/-!
The reference device: sources in memory. A catalog says which datasets there
are, contents hold their elements as doubles whatever the declared type, and a
dataset without contents reads as zeros. Every call is recorded before it is
answered. Handles are numbered from one and never given out twice.
-/

namespace SpmdArrays

/-- What a handle stands for. Below a location, the path of a dataset is its
name behind the stem of the location. -/
inductive Handle where
  | location (source stem : String)
  | dataset
  deriving DecidableEq, Repr

inductive Call where
  | openFile (name mode : String) (parallel : Int)
  | closeFile (file : Int)
  | size (dataset : String) (dim : Int)
  | read (dataset : String) (start count : List Int)
  | write (dataset : String) (start count : List Int)
  | createDataset (name : String) (shape : List Int) (elem : ElementType)
  | createGroup (name : String)
  deriving DecidableEq, Repr

def Call.ofRequest : Request → Call
  | .openFile name mode parallel => .openFile name mode parallel
  | .closeFile file => .closeFile file
  | .size _ dataset dim => .size dataset dim
  | .read _ dataset start count _ _ => .read dataset start count
  | .write _ dataset start count _ _ => .write dataset start count
  | .createDataset _ name shape elem => .createDataset name shape elem
  | .createGroup _ name => .createGroup name

/-- What opening a file asks of its source. -/
inductive OpenMode where
  /-- The source has to be there. -/
  | existing
  /-- The source is emptied, or created. -/
  | truncate
  /-- The source is kept, or created. -/
  | append
  /-- The source must not be there. -/
  | exclusive
  deriving DecidableEq, Repr

def OpenMode.ofText? : String → Option OpenMode
  | "r" | "r+" => some .existing
  | "w" => some .truncate
  | "a" => some .append
  | "w-" | "x" => some .exclusive
  | _ => none

def OpenMode.admits : OpenMode → Bool → Bool
  | .existing, present => present
  | .truncate, _ => true
  | .append, _ => true
  | .exclusive, present => !present

structure Store where
  catalog : Catalog := .empty
  contents : BySource (Array Float) := .empty
  handles : Std.TreeMap Int Handle := {}
  nextHandle : Int := 1
  calls : Array Call := #[]

namespace Store

def ofCatalog (catalog : Catalog) : Store := { catalog }

def refused : Int := -1

def withContents (s : Store) (source path : String) (values : Array Float) : Store :=
  { s with contents := s.contents.insert source path values }

def record (s : Store) (c : Call) : Store := { s with calls := s.calls.push c }

/-- The number of the handle that is given out next. It is never below one. -/
def upcoming (s : Store) : Int := max s.nextHandle 1

def grant (s : Store) (h : Handle) : Int × Store :=
  (s.upcoming, { s with handles := s.handles.insert s.upcoming h, nextHandle := s.upcoming + 1 })

def locate? (s : Store) (file : Int) (name : String) : Option (String × String) :=
  match s.handles[file]? with
  | some (.location source stem) => some (source, stem ++ name)
  | _ => none

/-- A known dataset below a location, with its description. -/
def dataset? (s : Store) (file : Int) (name : String) :
    Option (String × String × DatasetInfo) := do
  let (source, path) ← s.locate? file name
  let info ← s.catalog.get? source path
  return (source, path, info)

def openFile (s : Store) (name mode : String) : Int × Store :=
  match OpenMode.ofText? mode with
  | none => (refused, s)
  | some m =>
    if m.admits (s.catalog.hasSource name) then
      let opened :=
        if m = .truncate then
          { s with
            catalog := s.catalog.clearSource name
            contents := s.contents.eraseSource name }
        else { s with catalog := s.catalog.addSource name }
      opened.grant (.location name "")
    else (refused, s)

def closeFile (s : Store) (file : Int) : Int × Store :=
  if s.handles.contains file then (0, { s with handles := s.handles.erase file })
  else (refused, s)

/-- The extent of one dimension, read as a signed word. -/
def size (s : Store) (file : Int) (name : String) (dim : Int) : Int :=
  match s.dataset? file name with
  | none => refused
  | some (_, _, info) =>
    if dim < 0 then refused
    else match info.shape[dim.toNat]? with
      | none => refused
      | some extent => Word.wrapSigned 64 extent

/-- The element at a flat index; what is not stored is zero. -/
def element (stored : Option (Array Float)) (i : Nat) : Float :=
  (stored.bind fun v => v[i]?).getD 0

/-- Fills the front of a buffer with the cells of a slab. -/
def read (s : Store) (file : Int) (name : String) (start count : List Int) (stride : Int)
    (dest : Array Float) : Except Fault Reply :=
  match s.dataset? file name with
  | none => .ok ⟨refused, dest⟩
  | some (source, path, info) => do
    match ← Slab.indices info.shape start count stride with
    | none => return ⟨refused, dest⟩
    | some cells =>
      if dest.size < cells.length then return ⟨refused, dest⟩
      let stored := s.contents.get? source path
      return ⟨0, (cells.map (element stored)).toArray ++ dest.drop cells.length⟩

/-- The elements of a dataset that was never written. -/
def zeros (info : DatasetInfo) : Except Fault (Array Float) := do
  let n ← info.size
  reserve 8 n
  return Array.replicate n.toNat 0

/-- Puts the front of a buffer into the given cells; a cell outside the stored
elements is skipped. -/
def scatter (stored : Array Float) (cells : List Nat) (src : Array Float) : Array Float :=
  (cells.zip src.toList).foldl (fun v c => v.setIfInBounds c.1 c.2) stored

/-- Puts the front of a buffer into the cells of a slab. -/
def write (s : Store) (file : Int) (name : String) (start count : List Int) (stride : Int)
    (src : Array Float) : Except Fault (Int × Store) :=
  match s.dataset? file name with
  | none => .ok (refused, s)
  | some (source, path, info) => do
    match ← Slab.indices info.shape start count stride with
    | none => return (refused, s)
    | some cells =>
      if src.size < cells.length then return (refused, s)
      let stored ← match s.contents.get? source path with
        | some v => pure v
        | none => zeros info
      return (0, s.withContents source path (scatter stored cells src))

def createDataset (s : Store) (file : Int) (name : String) (shape : List Int)
    (elem : ElementType) : Int × Store :=
  match s.locate? file name with
  | none => (refused, s)
  | some (source, path) =>
    if shape.any (· < 0) then (refused, s)
    else
      ({ s with catalog := s.catalog.insert source path ⟨elem, shape.map Int.toNat⟩ }).grant
        .dataset

def createGroup (s : Store) (file : Int) (name : String) : Int × Store :=
  match s.locate? file name with
  | none => (refused, s)
  | some (source, path) => s.grant (.location source (path ++ "/"))

def serve (s : Store) : Request → Except Fault (Reply × Store)
  | .openFile name mode _ => let (h, t) := s.openFile name mode; .ok (⟨h, #[]⟩, t)
  | .closeFile file => let (n, t) := s.closeFile file; .ok (⟨n, #[]⟩, t)
  | .size file name dim => .ok (⟨s.size file name dim, #[]⟩, s)
  | .read file name start count stride dest => do
    return (← s.read file name start count stride dest, s)
  | .write file name start count stride src => do
    let (n, t) ← s.write file name start count stride src
    return (⟨n, #[]⟩, t)
  | .createDataset file name shape elem =>
    let (h, t) := s.createDataset file name shape elem; .ok (⟨h, #[]⟩, t)
  | .createGroup file name => let (h, t) := s.createGroup file name; .ok (⟨h, #[]⟩, t)

/-- Records a request, then answers it. A fault leaves only the record. -/
def answer (q : Request) (s : Store) : Except Fault Reply × Store :=
  let s := s.record (Call.ofRequest q)
  match s.serve q with
  | .ok (reply, t) => (.ok reply, t)
  | .error fault => (.error fault, s)

def device : Device Store := ⟨answer⟩

end Store

end SpmdArrays
