import SpmdArrays.Llvm.Session
import SpmdArrays.Lowering.EntryPoint

/-!
The helper for cumulative sums of one kind of number. It adds up the input,
asks the scan entry point for the sum of all lower ranks, and then writes the
running sum from there on:

    total = sum(input[0..n])
    running = exscan(total)
    for i in 0..n: running += input[i]; output[i] = running
    return 0
-/

namespace SpmdArrays.Lowering.CumulativeSum

open Llvm (Ty Operand Signature Emit Draft)

def helperName (k : ScalarKind) : String := "hdl_cumsum_" ++ k.suffix

def helperSignature : Signature := ⟨.i32, [.ptr, .ptr, .i64]⟩

def input : Operand := ⟨.ptr, .param "input"⟩

def output : Operand := ⟨.ptr, .param "output"⟩

def length : Operand := ⟨.i64, .param "n"⟩

/-- Runs the body for the values of a counter from the one in its slot up to
the length. -/
def countedLoop (hint : String) (counter : Operand) (body : Operand → Emit Llvm.Error Unit) :
    Emit Llvm.Error Unit := do
  let cond ← Emit.newLabel (hint ++ ".cond")
  let step ← Emit.newLabel (hint ++ ".body")
  let done ← Emit.newLabel (hint ++ ".end")
  Emit.br cond
  Emit.label cond
  let i ← Emit.load .i64 counter
  let more ← Emit.icmp "slt" i length
  Emit.condBr more step done
  Emit.label step
  body i
  let next ← Emit.add i (.i64 1)
  Emit.store next counter
  Emit.br cond
  Emit.label done

/-- Adds the element under the counter to the accumulator; returns the sum. -/
def accumulate (elem : Ty) (acc i : Operand) : Emit Llvm.Error Operand := do
  let p ← Emit.gep elem input [i]
  let x ← Emit.load elem p
  let t ← Emit.load elem acc
  let sum ← Emit.add t x
  Emit.store sum acc
  return sum

def helperBody (k : ScalarKind) : Emit Llvm.Error Unit := do
  let elem := k.type
  let acc ← Emit.alloca elem
  let counter ← Emit.alloca .i64
  Emit.store (.zero elem) acc
  Emit.store (.i64 0) counter
  countedLoop "sum" counter fun i => do
    let _ ← accumulate elem acc i
  let total ← Emit.load elem acc
  let scan := EntryPoint.exclusiveScan k
  let first ← Emit.call scan.symbol scan.signature [total]
  Emit.store first acc
  Emit.store (.i64 0) counter
  countedLoop "write" counter fun i => do
    let sum ← accumulate elem acc i
    let q ← Emit.gep elem output [i]
    Emit.store sum q
  Emit.ret (some (.i32 0))
  Emit.finish

def helperDraft (k : ScalarKind) : Draft :=
  .start (helperName k) .i32 [(.ptr, "input"), (.ptr, "output"), (.i64, "n")] true

/-- Defines the helper unless its name is defined; returns the name. The
function that was open stays open. -/
def ensureHelper (k : ScalarKind) : Emit Llvm.Error String := fun s =>
  if s.module.isDefined (helperName k) then .ok (helperName k) s
  else
    match helperBody k { s with draft := helperDraft k } with
    | .ok () t => .ok (helperName k) { t with draft := s.draft }
    | .error e t => .error e { t with draft := s.draft }

end SpmdArrays.Lowering.CumulativeSum
