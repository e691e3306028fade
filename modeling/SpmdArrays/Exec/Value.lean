import SpmdArrays.Device.EntryPoint
import SpmdArrays.Program.Statement

/-!
The values of a running program. Arrays are dense and row-major, and hold their
elements as doubles whatever their declared type.
-/

namespace SpmdArrays

structure ArrayValue where
  elem : ElementType
  shape : List Nat
  data : Array Float
  deriving DecidableEq, Repr

/-- An array of zeros of the given extents, if an address space can hold it. -/
def ArrayValue.zeros (elem : ElementType) (shape : List Nat) : Except Fault ArrayValue := do
  let n ← Word.u64.product (shape.map Int.ofNat)
  reserve 8 n
  return ⟨elem, shape, Array.replicate n.toNat 0⟩

inductive Value where
  | absent
  | int (v : Int)
  | float (v : Float)
  | bool (b : Bool)
  | str (s : String)
  | slice (s : Slice)
  | tuple (items : List Value)
  | array (a : ArrayValue)
  /-- A file, group or dataset handle given out by a device. -/
  | handle (h : Int)
  | module (name : ModuleName)
  | entry (e : EntryPoint)
  deriving Repr

def Value.ofLiteral : Literal → Value
  | .int v => .int v
  | .float v => .float v
  | .bool b => .bool b
  | .str s => .str s
  | .absent => .absent
  | .slice s => .slice s

mutual

def Value.text : Value → String
  | .absent => "None"
  | .int v => toString v
  | .float v => NumberLayout.value.text v
  | .bool b => toString b
  | .str s => Text.quoted s
  | .slice s => "slice(" ++ s.text ++ ")"
  | .tuple items => "(" ++ ", ".intercalate (Value.texts items) ++ ")"
  | .array a => "array<" ++ a.elem.name ++ ">(" ++ "x".intercalate (a.shape.map toString) ++ ")"
  | .handle h => "handle#" ++ toString h
  | .module name => "module " ++ name.text
  | .entry e => "io_abi." ++ e.name

def Value.texts : List Value → List String
  | [] => []
  | v :: vs => v.text :: Value.texts vs

end

end SpmdArrays
