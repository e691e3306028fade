import SpmdArrays.Lowering.Address
import SpmdArrays.Lowering.CumulativeSum

/-!
Distributed primitives with lowered operands, and the calls of native entry
points that they become. Operands are checked before any code is emitted.
-/

namespace SpmdArrays.Lowering

open Llvm (Ty Operand Emit)

/-- The operands of a portion of the work: how many items, in how many chunks,
for which worker of how many. -/
structure PortionArgs where
  total : Operand
  chunks : Operand
  worker : Operand
  workers : Operand
  deriving DecidableEq, Repr

/-- The operands of a message; without its condition nothing is exchanged. -/
structure MessageArgs where
  array : ArrayOperand
  count : Operand
  peer : Operand
  tag : Operand
  cond : Operand
  deriving DecidableEq, Repr

inductive Primitive where
  | rank
  | size
  | chunkEnd (p : PortionArgs)
  | portion (p : PortionArgs)
  | time
  | reduce (v : Operand)
  | arrayReduce (a : ArrayOperand)
  | exclusiveScan (v : Operand)
  | cumulativeSum (input output : ArrayOperand)
  | send (m : MessageArgs)
  | receive (m : MessageArgs)
  | wait (request cond : Operand)
  | setItem (a : ArrayOperand) (indices : List Operand) (value start count : Operand)
  deriving DecidableEq, Repr

def Primitive.name : Primitive → String
  | .rank => "rank"
  | .size => "size"
  | .chunkEnd _ => "end"
  | .portion _ => "portion"
  | .time => "time"
  | .reduce _ => "reduce"
  | .arrayReduce _ => "array_reduce"
  | .exclusiveScan _ => "exclusive_scan"
  | .cumulativeSum .. => "cumulative_sum"
  | .send _ => "isend"
  | .receive _ => "irecv"
  | .wait .. => "wait"
  | .setItem .. => "dist_setitem"

def PortionArgs.check (p : PortionArgs) (primitive : String) : Except Error Unit := do
  expectType primitive "total" p.total .i64
  expectType primitive "chunks" p.chunks .i64
  expectType primitive "worker" p.worker .i32
  expectType primitive "workers" p.workers .i32

def PortionArgs.toList (p : PortionArgs) : List Operand :=
  [p.total, p.chunks, p.worker, p.workers]

def MessageArgs.check (m : MessageArgs) (primitive : String) : Except Error Unit := do
  m.array.check primitive
  expectType primitive "count" m.count .i32
  expectType primitive "peer" m.peer .i32
  expectType primitive "tag" m.tag .i32
  expectType primitive "cond" m.cond .i1

def MessageArgs.toList (m : MessageArgs) : List Operand :=
  [m.array.data, m.count, .i32 m.array.elem.tag, m.peer, m.tag, m.cond]

def scalarKind (primitive : String) (type : Ty) : Except Error ScalarKind :=
  match ScalarKind.ofType? type with
  | some k => .ok k
  | none => .error (.unsupportedType primitive type.text)

/-- The kind of the elements of two arrays of the same type. -/
def sumKind (primitive : String) (input output : ArrayOperand) : Except Error ScalarKind := do
  input.check primitive
  output.check primitive
  if input.elem ≠ output.elem then
    .error (.invalidOperand primitive (.elements input.elem output.elem))
  else
    match ScalarKind.ofElement? input.elem with
    | some k => .ok k
    | none => .error (.unsupportedType primitive input.elem.name)

namespace Lower

/-- Stores the extents one after the other into a slot. -/
def storeExtents (slotType : Ty) (slot : Operand) : Nat → List Operand → Lower Unit
  | _, [] => return ()
  | k, extent :: rest => do
    let p ← Emit.gep slotType slot [.i64 0, .i64 k]
    Emit.store extent p
    storeExtents slotType slot (k + 1) rest

def elementCount (n : Operand) : List Operand → Lower Operand
  | [] => return n
  | extent :: rest => do elementCount (← Emit.mul n extent) rest

/-- Sums an array over all ranks in place. Its extents are passed in a slot. -/
def arrayReduce (a : ArrayOperand) : Lower Operand := do
  ofExcept (a.check "array_reduce")
  let slotType := Ty.array a.rank .i64
  let slot ← Emit.alloca slotType
  storeExtents slotType slot 0 a.shape
  callEntry .arrayReduce [a.data, slot, .i32 a.rank, .i32 a.elem.tag]

def cumulativeSum (input output : ArrayOperand) : Lower Operand := do
  let k ← ofExcept (sumKind "cumulative_sum" input output)
  let n ← elementCount (.i64 1) input.shape
  let helper ← lift (CumulativeSum.ensureHelper k)
  lift (Emit.call helper CumulativeSum.helperSignature [input.data, output.data, n])

def setItem (a : ArrayOperand) (indices : List Operand) (value start count : Operand) :
    Lower Operand := do
  ofExcept (expectType "dist_setitem" "start" start .i64)
  ofExcept (expectType "dist_setitem" "count" count .i64)
  ofExcept (expectType "dist_setitem" "value" value a.elemType)
  let ptr ← itemPointer "dist_setitem" a indices (.distributed start count)
  Emit.store value ptr
  return .i32 0

/-- Reads an element of this process's own part of an array. -/
def getItem (a : ArrayOperand) (indices : List Operand) : Lower Operand := do
  let ptr ← itemPointer "getitem" a indices .own
  Emit.load a.elemType ptr

end Lower

/-- Emits the code of a primitive and returns its result. -/
def Primitive.lower : Primitive → Lower Operand
  | .rank => Lower.callEntry .rank []
  | .size => Lower.callEntry .size []
  | .chunkEnd p => do
    Lower.ofExcept (p.check "end")
    Lower.callEntry .chunkEnd p.toList
  | .portion p => do
    Lower.ofExcept (p.check "portion")
    Lower.callEntry .portion p.toList
  | .time => Lower.callEntry .time []
  | .reduce v => do
    Lower.callEntry (.reduce (← Lower.ofExcept (scalarKind "reduce" v.type))) [v]
  | .arrayReduce a => Lower.arrayReduce a
  | .exclusiveScan v => do
    Lower.callEntry (.exclusiveScan (← Lower.ofExcept (scalarKind "exclusive_scan" v.type))) [v]
  | .cumulativeSum input output => Lower.cumulativeSum input output
  | .send m => do
    Lower.ofExcept (m.check "isend")
    Lower.callEntry .send m.toList
  | .receive m => do
    Lower.ofExcept (m.check "irecv")
    Lower.callEntry .receive m.toList
  | .wait request cond => do
    Lower.ofExcept (expectType "wait" "request" request .i32)
    Lower.ofExcept (expectType "wait" "cond" cond .i1)
    Lower.callEntry .wait [request, cond]
  | .setItem a indices value start count => Lower.setItem a indices value start count

end SpmdArrays.Lowering
