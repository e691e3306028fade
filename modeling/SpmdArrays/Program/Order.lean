import SpmdArrays.Program.Function

/-!
The order in which a forward pass visits the blocks of a function: reverse
post-order from the entry block, then the blocks that cannot be reached, by
number. The search keeps the path to the block it stands on as a stack; a
block is put in front of the finished ones when all its successors were looked
at, so the finished list ends up in reverse post-order by itself.
-/

namespace SpmdArrays.BlockGraph

/-- A step of the search marks a label that was not marked before. -/
theorem countP_mark_lt {labels seen : List Nat} {l : Nat} (hl : l ∈ labels) (hs : l ∉ seen) :
    labels.countP (fun k => k ∉ l :: seen) < labels.countP (fun k => k ∉ seen) := by
  induction labels with
  | nil => simp at hl
  | cons k labels ih =>
    have hle : labels.countP (fun k => k ∉ l :: seen) ≤ labels.countP (fun k => k ∉ seen) :=
      List.countP_mono_left fun x _ hx => by simp_all
    by_cases hk : k = l
    · subst hk
      simp only [List.countP_cons, List.mem_cons, true_or, not_true, hs, not_false_eq_true,
        decide_true, decide_false, if_true]
      simp only [List.mem_cons] at hle
      simp only [Bool.false_eq_true, if_false]
      omega
    · have hmem : l ∈ labels := by
        rcases List.mem_cons.mp hl with h | h
        · exact absurd h.symm hk
        · exact h
      have := ih hmem
      simp only [List.countP_cons, List.mem_cons, hk, false_or]
      simp only [List.mem_cons] at this
      omega

/-- Depth-first search over the labels below `size`. Each entry of the stack is
a label with the successors still to be looked at. Returns the marked labels
and the finished ones, last finished first. -/
def search (size : Nat) (next : Label → List Label) (stack : List (Label × List Label))
    (seen finished : List Label) : List Label × List Label :=
  match stack with
  | [] => (seen, finished)
  | (l, []) :: rest => search size next rest seen (l :: finished)
  | (l, s :: ss) :: rest =>
    if s < size ∧ s ∉ seen then
      search size next ((s, next s) :: (l, ss) :: rest) (s :: seen) finished
    else search size next ((l, ss) :: rest) seen finished
termination_by
  ((List.range size).countP (fun k => k ∉ seen), stack.length + (stack.flatMap Prod.snd).length)
decreasing_by
  · apply Prod.Lex.right
    simp
  · rename_i h
    apply Prod.Lex.left
    exact countP_mark_lt (List.mem_range.mpr h.1) h.2
  · apply Prod.Lex.right
    simp

end BlockGraph

namespace Function

/-- The labels marked from the entry block and the finished ones in reverse
post-order; both are empty if the entry block is missing. -/
def reachOrder (f : Function) : List Label × List Label :=
  if f.entry < f.blocks.size then
    BlockGraph.search f.blocks.size f.successors [(f.entry, f.successors f.entry)] [f.entry] []
  else ([], [])

/-- Every block once: the reachable ones in reverse post-order, then the others
by number. -/
def order (f : Function) : List Label :=
  let (seen, finished) := f.reachOrder
  finished ++ (List.range f.blocks.size).filter (fun l => l ∉ seen)

end Function

end SpmdArrays
