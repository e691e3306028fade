import SpmdArrays.Fault

/-!
Balanced portions. A number of items is split into contiguous chunks, the first
ones one item longer when the split does not come out even. A worker without a
chunk gets the empty portion at the end.
-/

namespace SpmdArrays.Spmd

structure Portion where
  start : Int
  stop : Int
  deriving DecidableEq, Repr

namespace Portion

/-- The portion of a worker. Fewer than one chunk count as one, and workers
below zero as the first. Division goes toward zero. -/
def of (total chunks worker : Int) : Except Fault Portion := do
  let n := max chunks 1
  let w := max worker 0
  if n ≤ w then return ⟨total, total⟩
  let q := total.tdiv n
  let r := total.tmod n
  let start ← Word.i64.add (← Word.i64.mul w q) (min w r)
  let length ← Word.i64.add q (if w < r then 1 else 0)
  return ⟨start, ← Word.i64.add start length⟩

def length (p : Portion) : Except Fault Int := Word.i64.sub p.stop p.start

end Portion

/-- The offset of an item inside the chunk of `count` items from `start` on, or
minus one if the chunk does not hold it. -/
def itemOffset (index start count : Int) : Except Fault Int :=
  if start ≤ index then do
    let offset ← Word.i64.sub index start
    return if offset < count then offset else -1
  else .ok (-1)

end SpmdArrays.Spmd
