import SpmdArrays.ElementType

/-!
The numbers that ranks exchange. Integers are held exactly and their sums are
checked against the words of their type; floating-point numbers add in their
own precision. Every sum starts from zero and goes from left to right.
-/

namespace SpmdArrays.ElementType

abbrev Carrier : ElementType → Type
  | .int8 | .uint8 | .int32 | .uint32 | .int64 | .uint64 => Int
  | .float32 => Float32
  | .float64 => Float

def zero : (t : ElementType) → t.Carrier
  | .int8 | .uint8 | .int32 | .uint32 | .int64 | .uint64 => (0 : Int)
  | .float32 => (0 : Float32)
  | .float64 => (0 : Float)

def add : (t : ElementType) → t.Carrier → t.Carrier → Except Fault t.Carrier
  | .int8, a, b => (Word.signed 8).add a b
  | .uint8, a, b => (Word.unsigned 8).add a b
  | .int32, a, b => (Word.signed 32).add a b
  | .uint32, a, b => (Word.unsigned 32).add a b
  | .int64, a, b => (Word.signed 64).add a b
  | .uint64, a, b => (Word.unsigned 64).add a b
  | .float32, a, b => .ok (Float32.add a b)
  | .float64, a, b => .ok (Float.add a b)

def sum (t : ElementType) (vs : List t.Carrier) : Except Fault t.Carrier :=
  vs.foldlM t.add t.zero

/-- The running sums of the input from a start value, written over the front of
the output. A fault leaves what was written before it. -/
def runningSums (t : ElementType) (running : t.Carrier) :
    (input output : List t.Carrier) → Except Fault Unit × List t.Carrier
  | v :: vs, o :: os =>
    match t.add running v with
    | .error f => (.error f, o :: os)
    | .ok s =>
      let (outcome, rest) := t.runningSums s vs os
      (outcome, s :: rest)
  | _, os => (.ok (), os)

/-- Replaces the elements from column `k` on by the sums of their columns. A
fault leaves the element it meets and all after it. -/
def columnSums (t : ElementType) (rows : List (List t.Carrier)) :
    (k : Nat) → List t.Carrier → Except Fault Unit × List t.Carrier
  | _, [] => (.ok (), [])
  | k, x :: xs =>
    match t.sum (rows.map fun row => row.getD k t.zero) with
    | .error f => (.error f, x :: xs)
    | .ok s =>
      let (outcome, rest) := t.columnSums rows (k + 1) xs
      (outcome, s :: rest)

end SpmdArrays.ElementType
