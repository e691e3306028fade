/-!
The seven positional entry points through which a program reaches files. Each
takes a fixed number of arguments and answers with a status or a handle.
-/

namespace SpmdArrays

inductive EntryPoint where
  | openFile
  | closeFile
  | size
  | read
  | write
  | createDataset
  | createGroup
  deriving DecidableEq, Repr

namespace EntryPoint

def all : List EntryPoint :=
  [.openFile, .closeFile, .size, .read, .write, .createDataset, .createGroup]

def name : EntryPoint → String
  | .openFile => "open"
  | .closeFile => "close"
  | .size => "size"
  | .read => "read"
  | .write => "write"
  | .createDataset => "create_dataset"
  | .createGroup => "create_group"

def ofName? (name : String) : Option EntryPoint := all.find? (·.name == name)

def arity : EntryPoint → Nat
  | .openFile => 3
  | .closeFile => 1
  | .size => 3
  | .read | .write => 7
  | .createDataset => 5
  | .createGroup => 2

@[simp] theorem ofName?_name (e : EntryPoint) : ofName? e.name = some e := by
  cases e <;> rfl

theorem name_inj {e e' : EntryPoint} (h : e.name = e'.name) : e = e' :=
  Option.some.inj (by rw [← ofName?_name e, h, ofName?_name])

end EntryPoint

end SpmdArrays
