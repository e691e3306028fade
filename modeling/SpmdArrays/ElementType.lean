import SpmdArrays.Fault
import Std.Data.TreeMap

/-!
Element types of arrays, array types, and the types that a function declares
for its locals.
-/

namespace SpmdArrays

/-- The element types that native entry points understand. -/
inductive ElementType where
  | int8
  | uint8
  | int32
  | uint32
  | int64
  | uint64
  | float32
  | float64
  deriving DecidableEq, Repr

namespace ElementType

/-- The number by which an untyped buffer announces its element type. -/
def tag : ElementType → Nat
  | .int8 => 0
  | .uint8 => 1
  | .int32 => 2
  | .uint32 => 3
  | .int64 => 4
  | .uint64 => 5
  | .float32 => 6
  | .float64 => 7

def name : ElementType → String
  | .int8 => "int8"
  | .uint8 => "uint8"
  | .int32 => "int32"
  | .uint32 => "uint32"
  | .int64 => "int64"
  | .uint64 => "uint64"
  | .float32 => "float32"
  | .float64 => "float64"

/-- The one-letter code of a type with its width in bits. -/
def code : ElementType → String
  | .int8 => "i8"
  | .uint8 => "u8"
  | .int32 => "i32"
  | .uint32 => "u32"
  | .int64 => "i64"
  | .uint64 => "u64"
  | .float32 => "f32"
  | .float64 => "f64"

def all : List ElementType :=
  [.int8, .uint8, .int32, .uint32, .int64, .uint64, .float32, .float64]

def ofCode? (s : String) : Option ElementType := all.find? (·.code == s)

def isFloat : ElementType → Bool
  | .float32 | .float64 => true
  | _ => false

def byteWidth : ElementType → Nat
  | .int8 | .uint8 => 1
  | .int32 | .uint32 | .float32 => 4
  | .int64 | .uint64 | .float64 => 8

/-- The code of array interchange: kind letter and width in bytes. -/
def interchangeCode (t : ElementType) : String :=
  match t with
  | .int8 => "i1"
  | .uint8 => "u1"
  | .int32 => "i4"
  | .uint32 => "u4"
  | .int64 => "i8"
  | .uint64 => "u8"
  | .float32 => "f4"
  | .float64 => "f8"

/-- Byte-order marks that may stand in front of a name. -/
def isByteOrderMark (c : Char) : Bool :=
  c == '<' || c == '>' || c == '=' || c == '|'

/-- Reads a long name or an interchange code, after any byte-order marks. -/
def ofName? (s : String) : Option ElementType :=
  let bare := String.ofList (s.toList.dropWhile isByteOrderMark)
  all.find? fun t => t.name == bare || t.interchangeCode == bare

@[simp] theorem ofCode?_code (t : ElementType) : ofCode? t.code = some t := by
  cases t <;> rfl

/-- The words in which an integer type holds its values. -/
def word? : ElementType → Option Word
  | .int8 => some (.signed 8)
  | .uint8 => some (.unsigned 8)
  | .int32 => some (.signed 32)
  | .uint32 => some (.unsigned 32)
  | .int64 => some (.signed 64)
  | .uint64 => some (.unsigned 64)
  | .float32 | .float64 => none

end ElementType

/-- A dense row-major array type: element type and number of dimensions. -/
structure ArrayType where
  elem : ElementType
  rank : Nat
  deriving DecidableEq, Repr

def ArrayType.text (t : ArrayType) : String :=
  "array(" ++ t.elem.name ++ ", " ++ toString t.rank ++ "d, C)"

/-- Declared types by variable name, in the order of the names. -/
abbrev Locals := Std.TreeMap String ArrayType

end SpmdArrays
