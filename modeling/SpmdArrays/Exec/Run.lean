import SpmdArrays.Device.Request
import SpmdArrays.Exec.Error
import SpmdArrays.Program.Function

/-!
Running a function on a device. Variables are held by name. Expressions
only look at the variables; a call first turns its arguments into a request,
which may fail, and then gives the request to the device. What a run did before
it stopped, to the device above all, stays done.
-/

namespace SpmdArrays

/-- The variables of a run, by name. -/
abbrev Env := Std.TreeMap String Value

namespace Env

def get (env : Env) (v : Var) : Except RunError Value :=
  match env[v.name]? with
  | some value => .ok value
  | none => .error (.undefinedVariable v.name)

/-- Parameters take the arguments in order; surplus ones of either are left. -/
def ofArgs (params : List String) (args : List Value) : Env :=
  (params.zip args).foldl (fun env p => env.insert p.1 p.2) {}

end Env

namespace Value

/-! ### Conversions of arguments -/

def asInt : Value → Except RunError Int
  | .int v => .ok v
  | .bool b => .ok (if b then 1 else 0)
  | other => .error (.typeError (.notInteger other))

def asExtent (v : Value) : Except RunError Nat := do
  let n ← v.asInt
  if n < 0 then .error (.typeError (.negativeExtent n)) else .ok n.toNat

def asInts : Value → Except RunError (List Int)
  | .tuple items => items.mapM asInt
  | other => .error (.typeError (.notTuple other))

def asStr : Value → Except RunError String
  | .str s => .ok s
  | other => .error (.typeError (.notString other))

def asHandle : Value → Except RunError Int
  | .handle h => .ok h
  | other => .error (.typeError (.notHandle other))

def asElement : Value → Except RunError ElementType
  | .str s =>
    match ElementType.ofName? s with
    | some t => .ok t
    | none => .error (.typeError (.elementName s))
  | other => .error (.typeError (.elementValue other))

/-- A branch looks at truth values and integers. -/
def truth : Value → Except RunError Bool
  | .bool b => .ok b
  | .int v => .ok (v != 0)
  | other => .error (.typeError (.branchOn other))

def item (base index : Value) : Except RunError Value :=
  match base, index with
  | .tuple items, .int i =>
    match (if i < 0 then none else items[i.toNat]?) with
    | some v => .ok v
    | none => .error (.typeError (.tupleIndex i))
  | base, index => .error (.unsupported (.indexing base index))

/-- Entry points are attributes of their table, and an array knows its shape. -/
def attr (base : Value) (name : String) : Except RunError Value :=
  match base with
  | .module .ioAbi =>
    match EntryPoint.ofName? name with
    | some e => .ok (.entry e)
    | none => .error (.unsupported (.noEntry name))
  | .array a =>
    if name = "shape" then
      .ok (.tuple (a.shape.map fun d => .int (Word.wrapSigned 64 (Int.ofNat d))))
    else .error (.unsupported (.attribute name base))
  | _ => .error (.unsupported (.attribute name base))

/-- The value of a target after a store into it. Only a whole array takes the
elements of another one of the same shape. -/
def stored (target : Value) (index : Literal) (source : Value) : Except RunError Value :=
  match target, source with
  | .array d, .array s =>
    if index.isFullSlice then
      if d.shape = s.shape then .ok (.array { d with data := s.data })
      else .error (.typeError (.shapes s.shape d.shape))
    else .error (.unsupported (.itemAssignment target))
  | target, _ => .error (.unsupported (.itemAssignment target))

end Value

/-! ### Expressions -/

def Expr.eval (env : Env) : Expr → Except (Stop RunError) Value
  | .global name => .ok (.module name)
  | .const lit => .ok (.ofLiteral lit)
  | .copy source => (env.get source).mapError .failed
  | .tuple items => do
    return .tuple (← (items.mapM env.get).mapError .failed)
  | .attr base name => do
    ((← (env.get base).mapError .failed).attr name).mapError .failed
  | .constItem base index _ => do
    ((← (env.get base).mapError .failed).item (.ofLiteral index)).mapError .failed
  | .item base index => do
    let b ← (env.get base).mapError .failed
    let i ← (env.get index).mapError .failed
    (b.item i).mapError .failed
  | .alloc shape elem => do
    let dims ← (shape.mapM fun v => do (← env.get v).asExtent).mapError .failed
    return .array (← (ArrayValue.zeros elem dims).mapError .fault)

/-! ### Calls -/

/-- A request ready for a device, and where a read leaves its buffer. -/
structure Prepared where
  request : Request
  dest : Option (String × ArrayValue) := none

/-- The slab that a read or a write goes to, checked against the given rank. -/
structure Transfer where
  file : Int
  dataset : String
  start : List Int
  count : List Int
  stride : Int

def Transfer.ofValues (file dataset rank start count stride : Value) :
    Except RunError Transfer := do
  let rank ← rank.asInt
  let start ← start.asInts
  let count ← count.asInts
  if start.length ≠ rank ∨ count.length ≠ rank then
    .error (.typeError (.transferRank rank start.length count.length))
  else
    let file ← file.asHandle
    let dataset ← dataset.asStr
    return ⟨file, dataset, start, count, ← stride.asInt⟩

/-- Turns the arguments of an entry point into a request. The last variable of
a read is the one that its buffer comes from. -/
def prepare (entry : EntryPoint) (vars : List Var) (args : List Value) :
    Except RunError Prepared :=
  match entry, args with
  | .openFile, [name, mode, parallel] => do
    return { request := .openFile (← name.asStr) (← mode.asStr) (← parallel.asInt) }
  | .closeFile, [file] => do return { request := .closeFile (← file.asHandle) }
  | .size, [file, dataset, dim] => do
    return { request := .size (← file.asHandle) (← dataset.asStr) (← dim.asInt) }
  | .read, [file, dataset, rank, start, count, stride, dest] => do
    let t ← Transfer.ofValues file dataset rank start count stride
    match dest with
    | .array a =>
      return { request := .read t.file t.dataset t.start t.count t.stride a.data
               dest := vars.getLast?.map fun v => (v.name, a) }
    | other => .error (.typeError (.readInto other))
  | .write, [file, dataset, rank, start, count, stride, src] => do
    let t ← Transfer.ofValues file dataset rank start count stride
    match src with
    | .array a => return { request := .write t.file t.dataset t.start t.count t.stride a.data }
    | other => .error (.typeError (.writeFrom other))
  | .createDataset, [file, name, rank, shape, elem] => do
    let shape ← shape.asInts
    let rank ← rank.asInt
    if shape.length ≠ rank then .error (.typeError (.datasetRank rank shape.length))
    else
      let elem ← elem.asElement
      let file ← file.asHandle
      return { request := .createDataset file (← name.asStr) shape elem }
  | .createGroup, [file, name] => do
    return { request := .createGroup (← file.asHandle) (← name.asStr) }
  | entry, _ => .error (.typeError (.arity entry))

/-- The request of a call: the callee has to be an entry point, all arguments
positional and of the right number. -/
def Env.request (env : Env) (callee : Var) (args : List Var) (kws : List (String × Var)) :
    Except RunError Prepared := do
  match ← env.get callee with
  | .entry e =>
    if kws.isEmpty ∧ args.length = e.arity then
      prepare e args (← args.mapM env.get)
    else .error (.typeError (.arity e))
  | other => .error (.unsupported (.callOf other))

/-- What a call returns for a status that is not negative. -/
def EntryPoint.result (e : EntryPoint) (status : Int) : Value :=
  match e with
  | .openFile | .createDataset | .createGroup => .handle status
  | .closeFile | .size | .read | .write => .int status

/-! ### Statements and functions -/

/-- A run in progress: its variables and the state of its device. -/
structure Machine (σ : Type) where
  env : Env
  device : σ

/-- Computations on a machine that may stop. What they did to the machine before
stays done. -/
abbrev Exec (σ : Type) := EStateM (Stop RunError) (Machine σ)

namespace Exec

variable {σ : Type}

def ofExcept {α : Type} : Except (Stop RunError) α → Exec σ α
  | .ok a => fun m => .ok a m
  | .error e => fun m => .error e m

def assign (name : String) (v : Value) : Exec σ Unit := fun m =>
  .ok () { m with env := m.env.insert name v }

def ask (d : Device σ) (q : Request) : Exec σ Reply := fun m =>
  match d.answer q m.device with
  | (.ok reply, t) => .ok reply { m with device := t }
  | (.error fault, t) => .error (.fault fault) { m with device := t }

/-- Runs a call up to its result. A read that succeeds leaves its buffer in the
variable it came from. -/
def call (d : Device σ) (callee : Var) (args : List Var) (kws : List (String × Var)) :
    Exec σ Value := do
  let prepared ← ofExcept (((← get).env.request callee args kws).mapError .failed)
  let reply ← ask d prepared.request
  let e := prepared.request.entry
  ofExcept ((checkStatus e.name reply.status).mapError .failed)
  match prepared.dest with
  | some (name, a) => assign name (.array { a with data := reply.buffer })
  | none => pure ()
  return e.result reply.status

def stmt (d : Device σ) : Stmt → Exec σ Unit
  | .assign target value => do
    assign target.name (← ofExcept (value.eval (← get).env))
  | .call target callee args kws => do
    assign target.name (← call d callee args kws)
  | .store target index value => do
    let env := (← get).env
    let source ← ofExcept ((env.get value).mapError .failed)
    let old ← ofExcept ((env.get target).mapError .failed)
    assign target.name (← ofExcept ((old.stored index source).mapError .failed))

def body (d : Device σ) : List Stmt → Exec σ Unit
  | [] => pure ()
  | s :: ss => do
    stmt d s
    body d ss

/-- Where a run goes from a terminator: to a block, or out with a value. -/
inductive Next where
  | goto (l : Label)
  | done (v : Option Value)

def Next.of (env : Env) : Terminator → Except RunError Next
  | .jump target => .ok (.goto target)
  | .branch cond ifTrue ifFalse => do
    return .goto (if ← (← env.get cond).truth then ifTrue else ifFalse)
  | .ret none => .ok (.done none)
  | .ret (some v) => do return .done (some (← env.get v))

/-- Runs at most `steps` blocks, starting with the given one. -/
def blocks (d : Device σ) (f : Function) : Nat → Label → Exec σ (Option Value)
  | 0, _ => ofExcept (.error (.failed (.unsupported .stepLimit)))
  | steps + 1, l => do
    match f.block? l with
    | none => ofExcept (.error (.failed (.unsupported (.missingBlock l))))
    | some b =>
      body d b.body
      match ← ofExcept ((Next.of (← get).env b.term).mapError .failed) with
      | .goto l => blocks d f steps l
      | .done v => return v

end Exec

/-- A run that enters more blocks than this is taken to be endless. -/
def stepLimit : Nat := 1000000

/-- Runs a function with the given arguments. Returns what it returned or why it
stopped, and the device as it was left. -/
def Function.run {σ : Type} (d : Device σ) (f : Function) (args : List Value) (device : σ) :
    Except (Stop RunError) (Option Value) × σ :=
  match Exec.blocks d f stepLimit f.entry ⟨Env.ofArgs f.params args, device⟩ with
  | .ok v m => (.ok v, m.device)
  | .error e m => (.error e, m.device)

end SpmdArrays
