import SpmdArrays.Llvm.Type

/-!
The native entry points of distributed primitives: their symbols and their
signatures. Sums and scans of single numbers have one entry point per kind of
number.
-/

namespace SpmdArrays.Lowering

open Llvm (Ty Signature)

/-- Numbers that have entry points of their own. -/
inductive ScalarKind where
  | i32
  | i64
  | f32
  | f64
  deriving DecidableEq, Repr

namespace ScalarKind

def ofType? : Ty → Option ScalarKind
  | .i32 => some .i32
  | .i64 => some .i64
  | .float => some .f32
  | .double => some .f64
  | _ => none

/-- Unsigned and short elements have no kind. -/
def ofElement? : ElementType → Option ScalarKind
  | .int32 => some .i32
  | .int64 => some .i64
  | .float32 => some .f32
  | .float64 => some .f64
  | _ => none

def type : ScalarKind → Ty
  | .i32 => .i32
  | .i64 => .i64
  | .f32 => .float
  | .f64 => .double

def suffix : ScalarKind → String
  | .i32 => "i4"
  | .i64 => "i8"
  | .f32 => "f4"
  | .f64 => "f8"

end ScalarKind

inductive EntryPoint where
  | rank
  | size
  | chunkEnd
  | portion
  | time
  | reduce (k : ScalarKind)
  | arrayReduce
  | exclusiveScan (k : ScalarKind)
  | send
  | receive
  | wait
  | itemPointer
  | dummyPointer
  deriving DecidableEq, Repr

namespace EntryPoint

def baseName : EntryPoint → String
  | .rank => "get_rank"
  | .size => "get_size"
  | .chunkEnd => "get_end"
  | .portion => "get_node_portion"
  | .time => "get_time"
  | .reduce k => "reduce_" ++ k.suffix
  | .arrayReduce => "arr_reduce"
  | .exclusiveScan k => "exscan_" ++ k.suffix
  | .send => "isend"
  | .receive => "irecv"
  | .wait => "wait"
  | .itemPointer => "get_item_pointer"
  | .dummyPointer => "get_dummy_ptr"

def symbol (e : EntryPoint) : String := "hdl_dist_" ++ e.baseName

def signature : EntryPoint → Signature
  | .rank | .size => ⟨.i32, []⟩
  | .chunkEnd | .portion => ⟨.i64, [.i64, .i64, .i32, .i32]⟩
  | .time => ⟨.double, []⟩
  | .reduce k | .exclusiveScan k => ⟨k.type, [k.type]⟩
  -- data, extents, rank, element tag
  | .arrayReduce => ⟨.i32, [.ptr, .ptr, .i32, .i32]⟩
  -- data, count, element tag, peer, tag, condition
  | .send | .receive => ⟨.i32, [.ptr, .i32, .i32, .i32, .i32, .i1]⟩
  | .wait => ⟨.i32, [.i32, .i1]⟩
  -- index, start, count
  | .itemPointer => ⟨.i64, [.i64, .i64, .i64]⟩
  | .dummyPointer => ⟨.ptr, []⟩

end EntryPoint

end SpmdArrays.Lowering
