import SpmdArrays.Spmd.Portion

/-!
The rows of a distributed array that one rank holds. Writes are addressed by
the row in the whole array; one that this rank does not hold is dropped and
counted.
-/

namespace SpmdArrays.Spmd

structure Chunk (α : Type) where
  data : Array α
  /-- Elements per row, at least one. -/
  rowLength : Nat
  start : Int
  count : Int
  /-- Writes that were dropped, without an upper bound; counted in 64 bits it is the same for
  the first 18446744073709551615 of them. -/
  dropped : Nat := 0

namespace Chunk

variable {α : Type}

def of (data : Array α) (rowLength : Nat) (start count : Int) : Chunk α :=
  { data, rowLength := max rowLength 1, start, count }

/-- Where a write to the given row and column goes, if it is this rank's. -/
def slot? (c : Chunk α) (row : Int) (column : Nat) : Except Fault (Option Nat) := do
  let offset ← itemOffset row c.start c.count
  if offset < 0 ∨ c.rowLength ≤ column then return none
  let i ← Word.u64.add (← Word.u64.mul offset c.rowLength) column
  return if i.toNat < c.data.size then some i.toNat else none

def set (c : Chunk α) (row : Int) (column : Nat) (value : α) : Except Fault (Chunk α) := do
  match ← c.slot? row column with
  | some i => return { c with data := c.data.setIfInBounds i value }
  | none => return { c with dropped := c.dropped + 1 }

end Chunk

end SpmdArrays.Spmd
