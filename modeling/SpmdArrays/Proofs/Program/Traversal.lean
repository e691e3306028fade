import Mathlib.Data.List.Nodup
import Mathlib.Logic.Function.Iterate
import Mathlib.Logic.Relation
import SpmdArrays.Proofs.Program.Dominance

/-!
The search behind the order of visits, round by round, and what comes of it. Every
round is paid for out of a potential: three for each label that is not marked, since
entering a block puts one entry and at most two successors on the stack. So the search
is over after three rounds for each block at most.

What it has finished can be reached, and an edge between finished blocks leads on in the
list unless its target was still on the stack when its source was finished; the stack being
a walk, such an edge closes a cycle. Both hold of a finished list alone, so that only the
round that finishes a block has to be looked at.
-/

namespace SpmdArrays

/-! ### Rounds -/

namespace BlockGraph

def unmarked (size : Nat) (seen : List Label) : Nat :=
  (List.range size).countP fun k => k ∉ seen

theorem unmarked_le (size : Nat) (seen : List Label) : unmarked size seen ≤ size := by
  calc unmarked size seen ≤ (List.range size).length := List.countP_le_length
    _ = size := List.length_range

theorem unmarked_mark_lt {size : Nat} {seen : List Label} {s : Label} (hs : s < size ∧ s ∉ seen) :
    unmarked size (s :: seen) < unmarked size seen :=
  countP_mark_lt (List.mem_range.mpr hs.1) hs.2

structure Progress where
  stack : List (Label × List Label)
  seen : List Label
  finished : List Label

namespace Progress

/-- One round of the search. With nothing on the stack the search is over. -/
def round (size : Nat) (next : Label → List Label) (p : Progress) : Progress :=
  match p.stack with
  | [] => p
  | (l, []) :: rest => ⟨rest, p.seen, l :: p.finished⟩
  | (l, s :: ss) :: rest =>
    if s < size ∧ s ∉ p.seen then ⟨(s, next s) :: (l, ss) :: rest, s :: p.seen, p.finished⟩
    else ⟨(l, ss) :: rest, p.seen, p.finished⟩

/-- The rounds that are left at most if no label has more than two successors. -/
def potential (size : Nat) (p : Progress) : Nat :=
  3 * unmarked size p.seen + (p.stack.length + (p.stack.flatMap Prod.snd).length)

/-- A round is paid for out of the potential. -/
theorem potential_round_lt {size : Nat} {next : Label → List Label}
    (hnext : ∀ l, (next l).length ≤ 2) {p : Progress} (hp : p.stack ≠ []) :
    (p.round size next).potential size < p.potential size := by
  rcases p with ⟨_ | ⟨⟨l, _ | ⟨s, ss⟩⟩, rest⟩, seen, finished⟩
  · exact absurd rfl hp
  · simp [round, potential]
  · by_cases hs : s < size ∧ s ∉ seen
    · have hmark := unmarked_mark_lt hs
      have htwo := hnext s
      simp only [round, if_pos hs, potential, List.length_cons, List.flatMap_cons,
        List.length_append]
      omega
    · simp only [round, if_neg hs, potential, List.length_cons, List.flatMap_cons,
        List.length_append]
      omega

theorem exists_rounds_of_round {size : Nat} {next : Label → List Label}
    (hnext : ∀ l, (next l).length ≤ 2) {p q r : Progress} (hp : p.stack ≠ [])
    (hround : p.round size next = q)
    (hrest : ∃ n ≤ q.potential size, (round size next)^[n] q = r) :
    ∃ n ≤ p.potential size, (round size next)^[n] p = r := by
  obtain ⟨n, hn, hr⟩ := hrest
  have hlt : (p.round size next).potential size < p.potential size := potential_round_lt hnext hp
  rw [hround] at hlt
  exact ⟨n + 1, by omega, by rw [Function.iterate_succ_apply, hround, hr]⟩

/-- The search does its rounds until nothing is on the stack, and there are no more of them than
the potential allows. -/
theorem exists_rounds (size : Nat) {next : Label → List Label}
    (hnext : ∀ l, (next l).length ≤ 2) (stack : List (Label × List Label))
    (seen finished : List Label) :
    ∃ n ≤ potential size ⟨stack, seen, finished⟩,
      (round size next)^[n] ⟨stack, seen, finished⟩ =
        ⟨[], (search size next stack seen finished).1,
          (search size next stack seen finished).2⟩ := by
  fun_induction search size next stack seen finished with
  | case1 seen finished => exact ⟨0, Nat.zero_le _, rfl⟩
  | case2 seen finished l rest ih => exact exists_rounds_of_round hnext (by simp) rfl ih
  | case3 seen finished l s ss rest hs ih =>
      exact exists_rounds_of_round hnext (by simp) (if_pos hs) ih
  | case4 seen finished l s ss rest hs ih =>
      exact exists_rounds_of_round hnext (by simp) (if_neg hs) ih

end Progress

end BlockGraph

theorem Terminator.length_successors_le (t : Terminator) : t.successors.length ≤ 2 := by
  cases t <;> simp [successors]

namespace Function

variable {f : Function} {rest : List (Label × List Label)} {seen finished : List Label} {l : Label}

theorem length_successors_le (f : Function) (l : Label) : (f.successors l).length ≤ 2 := by
  unfold successors
  split
  · exact Terminator.length_successors_le _
  · exact Nat.zero_le _

def searchStart (f : Function) : BlockGraph.Progress :=
  if f.entry < f.blocks.size then ⟨[(f.entry, f.successors f.entry)], [f.entry], []⟩
  else ⟨[], [], []⟩

/-- Three rounds for each block are enough. -/
theorem exists_rounds_reachOrder (f : Function) :
    ∃ n ≤ 3 * f.blocks.size,
      (BlockGraph.Progress.round f.blocks.size f.successors)^[n] f.searchStart =
        ⟨[], f.reachOrder.1, f.reachOrder.2⟩ := by
  unfold searchStart reachOrder
  by_cases hentry : f.entry < f.blocks.size
  · rw [if_pos hentry, if_pos hentry]
    obtain ⟨n, hn, hrounds⟩ := BlockGraph.Progress.exists_rounds f.blocks.size
      f.length_successors_le [(f.entry, f.successors f.entry)] [f.entry] []
    refine ⟨n, ?_, hrounds⟩
    have hmark : BlockGraph.unmarked f.blocks.size [f.entry] <
        BlockGraph.unmarked f.blocks.size [] :=
      BlockGraph.unmarked_mark_lt ⟨hentry, List.not_mem_nil⟩
    have hall := BlockGraph.unmarked_le f.blocks.size []
    have htwo := f.length_successors_le f.entry
    simp only [BlockGraph.Progress.potential, List.length_singleton, List.flatMap_singleton] at hn
    omega
  · rw [if_neg hentry, if_neg hentry]
    exact ⟨0, Nat.zero_le _, rfl⟩

/-! ### Edges and finished blocks -/

/-- An edge between existing blocks of the graph that can be reached. -/
def Edge (f : Function) (a b : Label) : Prop :=
  f.Reachable a ∧ b ∈ f.successors a ∧ b < f.blocks.size

/-- No block that can be reached leads back to itself. -/
def Acyclic (f : Function) : Prop := ∀ a, ¬ Relation.TransGen f.Edge a a

theorem Walk.leads {w : List Label} {k : Label} (h : f.Walk w l) (hk : k ∈ l :: w) :
    Relation.ReflTransGen f.Edge k l := by
  induction h with
  | start _ =>
      rw [List.mem_singleton.mp hk]
  | @step w l s hw hs hsize ih =>
      rcases List.mem_cons.mp hk with rfl | hk
      · exact .refl
      · exact (ih hk).tail ⟨⟨w, hw⟩, hs, hsize⟩

/-- What holds of the finished blocks all along the search. -/
structure Explored (f : Function) (finished : List Label) : Prop where
  reachable : ∀ l ∈ finished, f.Reachable l
  /-- An edge leads on in the list or closes a cycle. -/
  edges : ∀ a ∈ finished, ∀ b ∈ f.successors a, b < f.blocks.size →
    [a, b].Sublist finished ∨ Relation.ReflTransGen f.Edge b a

theorem Explored.finish (h : f.Explored finished)
    (hinv : f.SearchInv ((l, []) :: rest) seen finished) : f.Explored (l :: finished) where
  reachable k hk := by
    rcases List.mem_cons.mp hk with rfl | hk
    · exact ⟨_, hinv.walks.1⟩
    · exact h.reachable k hk
  edges a ha b hb hsize := by
    rcases List.mem_cons.mp ha with rfl | ha
    · -- nothing is left to be looked at, so the target is marked: it is finished or on the stack
      have hseen : b ∈ seen :=
        (hinv.pending a [] (List.mem_cons_self ..) b hb hsize).resolve_right List.not_mem_nil
      rcases (hinv.mem_seen b).mp hseen with hstack | hfinished
      · exact Or.inr (hinv.walks.1.leads hstack)
      · exact Or.inl (List.Sublist.cons_cons _ (List.singleton_sublist.mpr hfinished))
    · exact (h.edges a ha b hb hsize).imp_left fun hsub => hsub.cons _

theorem Explored.search {stack : List (Label × List Label)} (h : f.Explored finished)
    (hinv : f.SearchInv stack seen finished) :
    f.Explored (BlockGraph.search f.blocks.size f.successors stack seen finished).2 := by
  fun_induction BlockGraph.search f.blocks.size f.successors stack seen finished with
  | case1 seen finished => exact h
  | case2 seen finished l rest ih => exact ih (h.finish hinv) hinv.finish
  | case3 seen finished l s ss rest hs ih => exact ih h (hinv.enter hs.1 hs.2)
  | case4 seen finished l s ss rest hs ih => exact ih h (hinv.pass hs)

theorem explored_reachOrder (f : Function) : f.Explored f.reachOrder.2 := by
  have hnil : f.Explored [] := ⟨by simp, by simp⟩
  unfold reachOrder
  by_cases h : f.entry < f.blocks.size
  · rw [if_pos h]
    exact hnil.search (searchInv_start h)
  · rw [if_neg h]
    exact hnil

/-- The search finishes the blocks that can be reached, and no others. -/
theorem mem_reachOrder_iff_reachable : l ∈ f.reachOrder.2 ↔ f.Reachable l :=
  ⟨f.explored_reachOrder.reachable l, mem_reachOrder_of_reachable⟩

/-! ### What comes before what -/

/-- Both blocks are visited, the first one before the second. -/
def VisitedBefore (f : Function) (a b : Label) : Prop :=
  f.order.idxOf a < f.order.idxOf b ∧ b ∈ f.order

theorem visitedBefore_of_sublist {a b : Label} (h : [a, b].Sublist f.order) :
    f.VisitedBefore a b := by
  have hmem : b ∈ f.order := h.subset (by simp)
  obtain ⟨xs, ys, hsplit⟩ := List.append_of_mem hmem
  have hnodup := f.order_nodup
  refine ⟨?_, hmem⟩
  rw [hsplit] at h hnodup ⊢
  have ha : a ∈ xs := mem_of_sublist_pair h hnodup
  have hb : b ∉ xs := fun hb => (List.nodup_append'.mp hnodup).2.2 hb (List.mem_cons_self ..)
  calc (xs ++ b :: ys).idxOf a = xs.idxOf a := List.idxOf_append_of_mem ha
    _ < xs.length := List.idxOf_lt_length_of_mem ha
    _ = (xs ++ b :: ys).idxOf b := by rw [List.idxOf_append_of_notMem hb, List.idxOf_cons_self]; rfl

/-- Every walk to `b` goes through `a`, which may be `b` itself. -/
def Dominates (f : Function) (a b : Label) : Prop := ∀ w, f.Walk w b → a ∈ b :: w

theorem Dominates.strictly {a b : Label} (h : f.Dominates a b) (hne : a ≠ b) :
    f.StrictlyDominates a b :=
  fun w hw => (List.mem_cons.mp (h w hw)).resolve_left hne

theorem StrictlyDominates.dominates {a b : Label} (h : f.StrictlyDominates a b) :
    f.Dominates a b :=
  fun w hw => List.mem_cons_of_mem _ (h w hw)

/-- An edge leads to a block that is visited later, or back to one that leads to its source. -/
theorem Edge.visitedBefore_or_leads {a b : Label} (h : f.Edge a b) :
    f.VisitedBefore a b ∨ Relation.ReflTransGen f.Edge b a := by
  obtain ⟨hreach, hb, hsize⟩ := h
  refine (f.explored_reachOrder.edges a (mem_reachOrder_of_reachable hreach) b hb hsize).imp_left ?_
  intro hsub
  exact visitedBefore_of_sublist (hsub.trans (List.sublist_append_left _ _))

/-- A block is visited after all others that dominate it, and where nothing that can be reached
leads back to itself, after all that have an edge to it. -/
theorem order_respects_dominance (f : Function) :
    (∀ a b, f.Dominates a b → a ≠ b → f.Reachable a → f.Reachable b → f.VisitedBefore a b) ∧
      (f.Acyclic → ∀ a b, f.Edge a b → f.VisitedBefore a b) := by
  constructor
  · intro a b hdom hne _ hb
    exact visitedBefore_of_sublist (sublist_order_of_strictlyDominates hb (hdom.strictly hne))
  · intro hacyclic a b hedge
    rcases hedge.visitedBefore_or_leads with hbefore | hback
    · exact hbefore
    · exact absurd (Relation.TransGen.head' hedge hback) (hacyclic a)

/-- Two blocks that are entered from outside on either side of their loop, a block that leads
to itself, a way back to the entry, a missing block, and an unreachable block. -/
def knotted : Function where
  name := "knotted"
  params := ["c"]
  blocks := #[
    { term := .branch ⟨0, "c", ⟨1, 1⟩⟩ 1 2 },
    { term := .branch ⟨0, "c", ⟨1, 1⟩⟩ 2 3 },
    { term := .branch ⟨0, "c", ⟨1, 1⟩⟩ 1 3 },
    { term := .branch ⟨0, "c", ⟨1, 1⟩⟩ 3 4 },
    { term := .branch ⟨0, "c", ⟨1, 1⟩⟩ 0 9 },
    { term := .jump 3 }]

def knottedDominators (l : Label) : List Label := if l = 4 then [3] else []

/-- Both sides of a branch meet again, one of them by two edges. -/
def diamond : Function where
  name := "diamond"
  params := ["c"]
  blocks := #[
    { term := .branch ⟨0, "c", ⟨1, 1⟩⟩ 2 1 },
    { term := .branch ⟨0, "c", ⟨1, 1⟩⟩ 3 3 },
    { term := .jump 3 },
    {}]

theorem acyclic_of_lt (h : ∀ l < f.blocks.size, ∀ k ∈ f.successors l, l < k) : f.Acyclic := by
  have hedge : ∀ {a b}, f.Edge a b → a < b := by
    rintro a b ⟨⟨w, hw⟩, hb, -⟩
    exact h a hw.lt_size b hb
  have hpath : ∀ {a b}, Relation.TransGen f.Edge a b → a < b := by
    intro a b hab
    induction hab with
    | single hstep => exact hedge hstep
    | tail _ hstep ih => exact Nat.lt_trans ih (hedge hstep)
  exact fun a hcycle => Nat.lt_irrefl a (hpath hcycle)

theorem knotted_diamond_in_order :
    (knotted.Dominates 3 4 ∧ knotted.Reachable 3 ∧ knotted.Reachable 4 ∧
        knotted.VisitedBefore 3 4) ∧
      diamond.Acyclic ∧ diamond.Edge 1 3 ∧ diamond.VisitedBefore 1 3 := by
  have hentry : knottedDominators knotted.entry = [] := rfl
  have hdom : knotted.StrictlyDominates 3 4 :=
    strictlyDominates_of_table hentry (by decide) (by decide)
  have hthree : knotted.Walk [1, 0] 3 :=
    .step (.step (.start (by decide)) (by decide) (by decide)) (by decide) (by decide)
  have hfour : knotted.Walk [3, 1, 0] 4 := .step hthree (by decide) (by decide)
  have hacyclic : diamond.Acyclic := acyclic_of_lt (by decide)
  have hedge : diamond.Edge 1 3 :=
    ⟨⟨[0], .step (.start (by decide)) (by decide) (by decide)⟩, by decide, by decide⟩
  refine ⟨⟨hdom.dominates, ⟨_, hthree⟩, ⟨_, hfour⟩, ?_⟩, hacyclic, hedge, ?_⟩
  · exact (order_respects_dominance knotted).1 3 4 hdom.dominates (by decide) ⟨_, hthree⟩ ⟨_, hfour⟩
  · exact (order_respects_dominance diamond).2 hacyclic 1 3 hedge

/-! ### Every block once -/

theorem entry_dominates (f : Function) (l : Label) : f.Dominates f.entry l := by
  intro w hw
  induction hw with
  | start _ => exact List.mem_singleton_self _
  | step _ _ _ ih => exact List.mem_cons_of_mem _ ih

/-- Whatever the search finishes, the entry block is the first in the list. -/
theorem head?_reachOrder (f : Function) :
    f.reachOrder.2.head? = if f.entry < f.blocks.size then some f.entry else none := by
  by_cases hentry : f.entry < f.blocks.size
  · have hmem := mem_reachOrder_of_reachable ⟨[], .start hentry⟩
    have hinv := f.searchInv_reachOrder
    rw [if_pos hentry]
    cases hlist : f.reachOrder.2 with
    | nil =>
        rw [hlist] at hmem
        cases hmem
    | cons l ls =>
        by_cases hl : f.entry = l
        · rw [hl]
          rfl
        · -- the entry block would stand in front of the first one
          have hnodup := hinv.nodup
          have hdom := hinv.dominated l (hlist ▸ List.mem_cons_self ..) f.entry
            ((f.entry_dominates l).strictly hl)
          rw [hlist] at hdom hnodup
          have hfirst : f.entry ∈ [] :=
            mem_of_sublist_pair (hdom.resolve_left List.not_mem_nil) hnodup
          cases hfirst
  · rw [if_neg hentry, reachOrder, if_neg hentry]
    rfl

theorem order_eq (f : Function) :
    f.order = f.reachOrder.2 ++ (List.range f.blocks.size).filter fun l => l ∉ f.reachOrder.1 :=
  rfl

theorem mem_order_iff : l ∈ f.order ↔ l < f.blocks.size := by
  refine ⟨fun hl => ?_, mem_order_of_lt⟩
  rcases List.mem_append.mp hl with hl | hl
  · obtain ⟨w, hw⟩ := mem_reachOrder_iff_reachable.mp hl
    exact hw.lt_size
  · exact List.mem_range.mp (List.mem_filter.mp hl).1

/-- The search is over after three rounds for each block at most, whatever the labels point
at. The order has every block once: first those that can be reached, from the entry block on,
in the way the search finished them, then all others as they were created. -/
theorem order_lists_every_block (f : Function) :
    f.order.Perm (List.range f.blocks.size) ∧
      ∃ n ≤ 3 * f.blocks.size, ∃ seen reached rest,
        (BlockGraph.Progress.round f.blocks.size f.successors)^[n] f.searchStart =
          ⟨[], seen, reached⟩ ∧
        f.order = reached ++ rest ∧
        (∀ l, l ∈ reached ↔ f.Reachable l) ∧
        reached.head? = (if f.entry < f.blocks.size then some f.entry else none) ∧
        (∀ l, l ∈ rest ↔ l < f.blocks.size ∧ ¬ f.Reachable l) ∧
        rest.Pairwise (· < ·) := by
  constructor
  · refine (List.perm_ext_iff_of_nodup f.order_nodup List.nodup_range).mpr fun l => ?_
    rw [mem_order_iff, List.mem_range]
  · obtain ⟨n, hn, hrounds⟩ := f.exists_rounds_reachOrder
    refine ⟨n, hn, f.reachOrder.1, f.reachOrder.2, _, hrounds, f.order_eq,
      fun l => mem_reachOrder_iff_reachable, f.head?_reachOrder, fun l => ?_,
      List.pairwise_lt_range.filter _⟩
    rw [List.mem_filter, List.mem_range, decide_eq_true_eq, mem_reachOrder_iff,
      mem_reachOrder_iff_reachable]

end Function

end SpmdArrays
