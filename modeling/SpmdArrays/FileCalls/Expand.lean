import SpmdArrays.Device.EntryPoint
import SpmdArrays.FileCalls.DeadCode
import SpmdArrays.FileCalls.Resolve
import SpmdArrays.Program.Order

/-!
File calls made positional. With `m` the front end and `f` a handle:

    m.File(name, mode)               open(name, mode, 0)
    f.close()                        close(f)
    f.create_dataset(n, s, dtype=t)  create_dataset(f, n, rank of s, s, t)
    f.create_group(n)                create_group(f, n)
    x = f[n][:]                      size(f, n, d) per dimension; alloc; read(...)
    f[n][:] = a                      write(f, n, rank, zeros, a.shape, 0, a)

An index into a handle only names a dataset; nothing is emitted until the
dataset is read or written. Blocks are visited in their order, and what is
learned on the way holds from there on. Whatever stops this leaves the function
as it is.
-/

namespace SpmdArrays

/-- What is learned so far and the number of the next temporary. -/
structure Expansion where
  facts : Facts := {}
  nextTemp : Nat

/-- Computations that learn, take temporaries and may fail. -/
abbrev Expand := StateT Expansion (Except (Stop FileError))

namespace Expand

def ofExcept {α : Type} (x : Except FileError α) : Expand α := StateT.lift (x.mapError .failed)

def facts : Expand Facts := do return (← get).facts

def about (v : Var) : Expand Known := do return (← get).facts.about v.name

def modifyFacts (g : Facts → Facts) : Expand Unit :=
  modify fun s => { s with facts := g s.facts }

def learn (v : Var) (add : Known → Known) : Expand Unit :=
  modifyFacts fun f => f.learn v.name add

def fresh (c : FileScope) (stem : String) (loc : Loc) : Expand Var :=
  modifyGet fun s =>
    (⟨c.scope, Var.tempName stem s.nextTemp, loc⟩, { s with nextTemp := s.nextTemp + 1 })

def unsupported {α : Type} (c : FileScope) (loc : Loc) (cause : FileOpCause) : Expand α :=
  ofExcept (c.fail loc (.unsupported cause))

def require (c : FileScope) (loc : Loc) (call arg : String) : Option Var → Expand Var
  | some v => return v
  | none => ofExcept (c.fail loc (.missingArgument call arg))

/-- The width in bytes of a variable in a list of variables. -/
def varWidth : Nat := 40

/-- A list of one variable per dimension has to fit in the address space. -/
def reserveVars (rank : Nat) : Expand Unit :=
  StateT.lift ((reserve varWidth rank).mapError .fault)

/-! ### Emission -/

def intConst (target : Var) (n : Int) : Stmt := .assign target (.const (.int n))

def loadEntry (c : FileScope) (e : EntryPoint) (loc : Loc) : Expand (Var × List Stmt) := do
  let table ← fresh c "io_abi" loc
  let callee ← fresh c e.name loc
  return (callee, [.assign table (.global .ioAbi), .assign callee (.attr table e.name)])

def callEntry (c : FileScope) (e : EntryPoint) (args : List Var) (target : Var) :
    Expand (List Stmt) := do
  let (callee, load) ← loadEntry c e target.loc
  return load ++ [.call target callee args []]

/-- Moves a whole dataset: `entry(file, name, rank, zeros, counts, 0, buffer)`. -/
def transfer (c : FileScope) (e : EntryPoint) (d : DatasetRef) (rank : Nat) (counts : Expr)
    (buffer : Var) (loc : Loc) : Expand (List Stmt) := do
  let ndims ← fresh c "h5_ndims" loc
  let zero ← fresh c "const_zero" loc
  let starts ← fresh c "h5_starts" loc
  let countsVar ← fresh c "h5_counts" loc
  let status ← fresh c "h5_err" loc
  let call ← callEntry c e [d.file, d.name, ndims, starts, countsVar, zero, buffer] status
  return [intConst ndims rank, intConst zero 0,
      .assign starts (.tuple (List.replicate rank zero)), .assign countsVar counts] ++ call

def extents (c : FileScope) (sizeEntry : Var) (d : DatasetRef) (loc : Loc) :
    List Nat → Expand (List Var × List Stmt)
  | [] => return ([], [])
  | dim :: dims => do
    let dimVar ← fresh c "h5_dim" loc
    let extent ← fresh c "h5_size" loc
    let (vars, stmts) ← extents c sizeEntry d loc dims
    return (extent :: vars,
      intConst dimVar dim :: .call extent sizeEntry [d.file, d.name, dimVar] [] :: stmts)

/-- Reads a whole dataset into a new buffer. -/
def read (c : FileScope) (target : Var) (d : DatasetRef) : Expand (List Stmt) := do
  let type ← ofExcept (c.resolve (← facts) target d)
  reserveVars type.rank
  let loc := target.loc
  let (sizeEntry, load) ← loadEntry c .size loc
  let (vars, sizes) ← extents c sizeEntry d loc (List.range type.rank)
  let move ← transfer c .read d type.rank (.tuple vars) target loc
  return load ++ sizes ++ [.assign target (.alloc vars type.elem)] ++ move

/-- The rank of a dataset that is written: the one it was created with, or the
one declared for the source, or the one in the catalog. -/
def writeRank (c : FileScope) (target : Var) (d : DatasetRef) (source : Var) :
    Expand Nat := do
  let facts ← facts
  match (facts.about target.name).shape with
  | some dims => return dims.length
  | none =>
    match c.declared? facts source with
    | some type => return type.rank
    | none => return (← ofExcept (c.introspect facts target d)).rank

/-- Writes a whole dataset from an array. -/
def write (c : FileScope) (target : Var) (d : DatasetRef) (source : Var) :
    Expand (List Stmt) := do
  let rank ← writeRank c target d source
  reserveVars rank
  transfer c .write d rank (.attr source "shape") source target.loc

def openFile (c : FileScope) (target : Var) (args : List Var) (kws : List (String × Var)) :
    Expand (List Stmt) := do
  let loc := target.loc
  let name ← require c loc "File" "name" (args[0]? <|> kws.lookup "name")
  let (mode, modeStmts) ← match args[1]? <|> kws.lookup "mode" with
    | some mode => pure (mode, [])
    | none => do
      let mode ← fresh c "const_mode" loc
      pure (mode, [Stmt.assign mode (.const (.str "r"))])
  let parallel ← fresh c "const_parallel" loc
  learn target fun k => { k with file := some (.named name) }
  let call ← callEntry c .openFile [name, mode, parallel] target
  return modeStmts ++ [intConst parallel 0] ++ call

def createDataset (c : FileScope) (target file : Var) (args : List Var)
    (kws : List (String × Var)) : Expand (List Stmt) := do
  let loc := target.loc
  let name ← require c loc "create_dataset" "name" (args[0]? <|> kws.lookup "name")
  let shape ← require c loc "create_dataset" "shape" (args[1]? <|> kws.lookup "shape")
  let elem ← require c loc "create_dataset" "dtype" (kws.lookup "dtype" <|> args[2]?)
  match (← about shape).tuple with
  | none => unsupported c loc (.shapeNotTuple shape.name)
  | some dims => do
    let rank ← fresh c "h5_ndims" loc
    let call ← callEntry c .createDataset [file, name, rank, shape, elem] target
    learn target fun k => { k with dataset := some ⟨file, name⟩, shape := some dims }
    return intConst rank dims.length :: call

def createGroup (c : FileScope) (target file : Var) (args : List Var)
    (kws : List (String × Var)) : Expand (List Stmt) := do
  let name ← require c target.loc "create_group" "name" (args[0]? <|> kws.lookup "name")
  learn target fun k => { k with file := some .group }
  callEntry c .createGroup [file, name] target

/-! ### Recognition -/

/-- An attribute of a handle: a method to remember, or an error. -/
def noteMethod (c : FileScope) (target file : Var) (name : String) : Expand Unit :=
  match name with
  | "close" => learn target fun k => { k with closes := some file }
  | "create_dataset" => learn target fun k => { k with makesDataset := some file }
  | "create_group" => learn target fun k => { k with makesGroup := some file }
  | "keys" => pure ()
  | other => unsupported c target.loc (.attribute other file.name)

/-- A constant index into a handle names a dataset. The name gets a variable if
it has none. -/
def nameDataset (c : FileScope) (target file : Var) (index : Literal)
    (indexVar : Option Var) : Expand (List Stmt) := do
  let (name, stmts) ← match indexVar, index with
    | some v, _ => do
      modifyFacts (·.noteConst v index)
      pure (v, [])
    | none, .str s => do
      let v ← fresh c "dset_name" target.loc
      modifyFacts (·.noteConst v (.str s))
      pure (v, [Stmt.assign v (.const (.str s))])
    | none, other => unsupported c target.loc (.key file.name other)
  learn target fun k => { k with dataset := some ⟨file, name⟩ }
  return stmts ++ [.assign target (.constItem file index indexVar)]

/-- The statements that stand for one assignment. -/
def assign (c : FileScope) (target : Var) (value : Expr) : Expand (List Stmt) := do
  let keep := [Stmt.assign target value]
  match value with
  | .global .h5py =>
    learn target fun k => { k with isFrontEnd := true }
    return keep
  | .attr base name =>
    let b ← about base
    if b.isFrontEnd then
      if name = "File" then learn target fun k => { k with opensFiles := true }
    else if b.file.isSome then noteMethod c target base name
    return keep
  | .constItem base index indexVar =>
    let b ← about base
    if b.file.isSome then nameDataset c target base index indexVar
    else
      match b.dataset with
      | none => return keep
      | some d =>
        if index.isFullSlice then read c target d
        else unsupported c target.loc (.partialRead base.name index)
  | .item base index =>
    let b ← about base
    if b.file.isSome then learn target fun k => { k with dataset := some ⟨base, index⟩ }
    else if b.dataset.isSome then unsupported c target.loc (.dynamicItem base.name)
    return keep
  | .tuple items =>
    learn target fun k => { k with tuple := some items }
    return keep
  | .copy source =>
    modifyFacts (·.noteCopy target source)
    return keep
  | .const lit =>
    modifyFacts (·.noteConst target lit)
    return keep
  | .global _ | .alloc .. => return keep

/-- The statements that stand for one call. -/
def call (c : FileScope) (target callee : Var) (args : List Var)
    (kws : List (String × Var)) : Expand (List Stmt) := do
  let k ← about callee
  if k.opensFiles then openFile c target args kws
  else if let some file := k.closes then callEntry c .closeFile [file] target
  else if let some file := k.makesDataset then createDataset c target file args kws
  else if let some file := k.makesGroup then createGroup c target file args kws
  else return [.call target callee args kws]

/-- The statements that stand for one store. -/
def store (c : FileScope) (target : Var) (index : Literal) (value : Var) :
    Expand (List Stmt) := do
  let k ← about target
  if k.file.isSome then unsupported c target.loc (.storeIntoFile target.name)
  else
    match k.dataset with
    | none => return [.store target index value]
    | some d =>
      if index.isFullSlice then write c target d value
      else unsupported c target.loc (.partialWrite target.name index)

def stmt (c : FileScope) : Stmt → Expand (List Stmt)
  | .assign target value => assign c target value
  | .call target callee args kws => call c target callee args kws
  | .store target index value => store c target index value

def stmts (c : FileScope) : List Stmt → Expand (List Stmt)
  | [] => return []
  | s :: ss => do return (← stmt c s) ++ (← stmts c ss)

/-- One block: its copies are noted first. -/
def block (c : FileScope) (b : Block) : Expand Block := do
  modifyFacts (·.noteCopies b.body)
  return { b with body := ← stmts c b.body }

/-- The given blocks in the given order; every other block stays. -/
def blocks (c : FileScope) (bs : Array Block) : List Label → Expand (Array Block)
  | [] => return bs
  | l :: ls => do
    match bs[l]? with
    | none => blocks c bs ls
    | some b => blocks c (bs.setIfInBounds l (← block c b)) ls

end Expand

namespace Function

def fileScope (f : Function) (catalog : Option Inspector) : FileScope :=
  ⟨f.name, f.scope, f.locals, catalog⟩

/-- A function with its file calls made positional and what became dead taken
out. -/
def expandFiles (f : Function) (catalog : Option Inspector) :
    Except (Stop FileError) Function := do
  let (blocks, s) ← (Expand.blocks (f.fileScope catalog) f.blocks f.order).run
    { nextTemp := f.nextTemp }
  return { f with blocks, nextTemp := s.nextTemp }.withoutDead

end Function

end SpmdArrays
