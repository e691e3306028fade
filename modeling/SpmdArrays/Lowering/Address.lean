import SpmdArrays.Llvm.Session
import SpmdArrays.Lowering.EntryPoint
import SpmdArrays.Lowering.Error

/-!
Addresses of array elements. An array is a data pointer with its extents; the
offset of an element is computed row by row. In a distributed array the first
index counts rows of the whole array, and an element of a row that lies in
another process's chunk is sent to a dummy slot.
-/

namespace SpmdArrays.Lowering

open Llvm (Ty Operand Emit)

/-- Lowering emits code and fails with its own errors. -/
abbrev Lower := Emit Error

structure ArrayOperand where
  data : Operand
  shape : List Operand
  elem : ElementType
  deriving DecidableEq, Repr

namespace ArrayOperand

def rank (a : ArrayOperand) : Nat := a.shape.length

def elemType (a : ArrayOperand) : Ty := .ofElement a.elem

/-- The data is a pointer and every extent a 64-bit integer. -/
def check (a : ArrayOperand) (primitive : String) : Except Error Unit :=
  if a.data.type ≠ .ptr then
    .error (.invalidOperand primitive (.dataNotPointer a.data.type))
  else
    match a.shape.find? fun d => d.type != .i64 with
    | some d => .error (.invalidOperand primitive (.extentType d.type))
    | none => .ok ()

end ArrayOperand

/-- How the first index of an element is to be read. -/
inductive AddressMode where
  | own
  /-- Rows are counted over the whole array, of which this process holds
  `count` rows from `start` on. -/
  | distributed (start count : Operand)
  deriving DecidableEq, Repr

def expectType (primitive operand : String) (o : Operand) (type : Ty) : Except Error Unit :=
  if o.type = type then .ok ()
  else .error (.invalidOperand primitive (.wrongType operand type o.type))

/-- The indices fit the array in number and type; there is at least one, and
the first is told apart from the others. -/
def splitIndices (primitive : String) (a : ArrayOperand) (indices : List Operand) :
    Except Error (Operand × List Operand) :=
  match indices with
  | [] => .error (.invalidOperand primitive (.indexCount 0 a.rank))
  | first :: rest =>
    if rest.length + 1 ≠ a.rank then
      .error (.invalidOperand primitive (.indexCount (rest.length + 1) a.rank))
    else
      match indices.find? fun i => i.type != .i64 with
      | some i => .error (.invalidOperand primitive (.indexType i.type))
      | none => .ok (first, rest)

namespace Lower

def ofExcept {α : Type} : Except Error α → Lower α
  | .ok a => fun s => .ok a s
  | .error e => fun s => .error e s

/-- Takes over a computation of the code under construction. -/
def lift {α : Type} (x : Emit Llvm.Error α) : Lower α := fun s =>
  match x s with
  | .ok a t => .ok a t
  | .error e t => .error (.llvm e) t

def callEntry (e : EntryPoint) (args : List Operand) : Lower Operand :=
  lift (Emit.call e.symbol e.signature args)

/-- Row-major offset: each further index is added after scaling by its extent. -/
def offset (first : Operand) : List (Operand × Operand) → Lower Operand
  | [] => return first
  | (index, extent) :: rest => do
    let scaled ← Emit.mul first extent
    offset (← Emit.add scaled index) rest

/-- The address of an element of an array whose indices were checked. -/
def elementPointer (a : ArrayOperand) (first : Operand) (rest : List Operand)
    (mode : AddressMode) : Lower Operand := do
  match mode with
  | .own =>
    let o ← offset first (rest.zip a.shape.tail)
    Emit.gep a.elemType a.data [o]
  | .distributed start count =>
    let row ← callEntry .itemPointer [first, start, count]
    let o ← offset row (rest.zip a.shape.tail)
    let ptr ← Emit.gep a.elemType a.data [o]
    let outside ← Emit.icmp "eq" row (.i64 (-1))
    let dummy ← callEntry .dummyPointer []
    Emit.select outside dummy ptr

def itemPointer (primitive : String) (a : ArrayOperand) (indices : List Operand)
    (mode : AddressMode) : Lower Operand := do
  ofExcept (a.check primitive)
  let (first, rest) ← ofExcept (splitIndices primitive a indices)
  elementPointer a first rest mode

end Lower

end SpmdArrays.Lowering
