import Mathlib.Data.List.Nodup
import Mathlib.Tactic.Tauto
import SpmdArrays.Program.Order

/-!
What the order of visits guarantees. The depth-first search keeps the walk from
the entry block to the block it stands on as its stack; one invariant over the
stack, the marked and the finished labels then gives everything: each block is
listed once, every block that can be reached is finished, and a block that lies
on every walk to another one comes before it.
-/

namespace SpmdArrays

theorem mem_of_sublist_pair {α : Type} {a b : α} {xs ys : List α}
    (h : [a, b].Sublist (xs ++ b :: ys)) (hnodup : (xs ++ b :: ys).Nodup) : a ∈ xs := by
  obtain ⟨-, hrest, hdisjoint⟩ := List.nodup_append'.mp hnodup
  have hbx : b ∉ xs := fun hmem => hdisjoint hmem (List.mem_cons_self ..)
  have hby : b ∉ ys := (List.nodup_cons.mp hrest).1
  obtain ⟨l, r, hlr, hl, hr⟩ := List.sublist_append_iff.mp h
  cases l with
  | nil =>
      -- both would have to be found from the second one on
      rw [List.nil_append] at hlr
      subst hlr
      exact absurd ((List.cons_sublist_cons'.mp hr).elim
        (fun h => h.subset (List.mem_cons_of_mem _ (List.mem_singleton_self b)))
        fun h => h.2.subset (List.mem_singleton_self b)) hby
  | cons c l =>
      obtain ⟨rfl, -⟩ := List.cons.inj hlr
      exact hl.subset (List.mem_cons_self ..)

namespace Function

/-- The labels walked through on the way from the entry block to a block, latest
first; only existing blocks are entered. -/
inductive Walk (f : Function) : List Label → Label → Prop
  | start (h : f.entry < f.blocks.size) : Walk f [] f.entry
  | step {w : List Label} {l s : Label} (hw : Walk f w l) (hs : s ∈ f.successors l)
      (hsize : s < f.blocks.size) : Walk f (l :: w) s

def Reachable (f : Function) (l : Label) : Prop := ∃ w, f.Walk w l

/-- Every walk to `b` goes through `a` before it gets there. -/
def StrictlyDominates (f : Function) (a b : Label) : Prop := ∀ w, f.Walk w b → a ∈ w

theorem Walk.lt_size {f : Function} {w : List Label} {l : Label} (h : f.Walk w l) :
    l < f.blocks.size := by
  cases h with
  | start h => exact h
  | step _ _ h => exact h

/-- Every entry of the stack is reached through the entries below it, and what
is still to be looked at are successors of it. -/
def StackWalks (f : Function) : List (Label × List Label) → Prop
  | [] => True
  | (l, ss) :: rest =>
    f.Walk (rest.map Prod.fst) l ∧ (∀ s ∈ ss, s ∈ f.successors l) ∧ f.StackWalks rest

/-- What holds all along the search. -/
structure SearchInv (f : Function) (stack : List (Label × List Label))
    (seen finished : List Label) : Prop where
  walks : f.StackWalks stack
  nodup : (stack.map Prod.fst ++ finished).Nodup
  mem_seen : ∀ l, l ∈ seen ↔ l ∈ stack.map Prod.fst ∨ l ∈ finished
  /-- Successors of a finished block are marked. -/
  closed : ∀ l ∈ finished, ∀ s ∈ f.successors l, s < f.blocks.size → s ∈ seen
  /-- Successors of a block on the stack are marked or still to be looked at. -/
  pending : ∀ l ss, (l, ss) ∈ stack → ∀ s ∈ f.successors l, s < f.blocks.size →
    s ∈ seen ∨ s ∈ ss
  dominated : ∀ b ∈ finished, ∀ a, f.StrictlyDominates a b →
    a ∈ stack.map Prod.fst ∨ [a, b].Sublist finished

variable {f : Function} {rest : List (Label × List Label)} {seen finished : List Label}
  {l s : Label} {ss : List Label}

theorem SearchInv.finish (h : f.SearchInv ((l, []) :: rest) seen finished) :
    f.SearchInv rest seen (l :: finished) where
  walks := h.walks.2.2
  nodup := by
    have hn := h.nodup
    rw [List.map_cons, List.cons_append, List.nodup_cons] at hn
    exact List.nodup_middle.mpr (List.nodup_cons.mpr hn)
  mem_seen k := by
    rw [h.mem_seen k]
    simp only [List.map_cons, List.mem_cons]
    tauto
  closed k hk t ht hsize := by
    rcases List.mem_cons.mp hk with rfl | hk
    · rcases h.pending k [] (List.mem_cons_self ..) t ht hsize with h' | h'
      · exact h'
      · cases h'
    · exact h.closed k hk t ht hsize
  pending k ts hk := h.pending k ts (List.mem_cons_of_mem _ hk)
  dominated b hmem a ha := by
    rcases List.mem_cons.mp hmem with rfl | hb
    · exact Or.inl (ha _ h.walks.1)
    · rcases h.dominated b hb a ha with h' | h'
      · rcases List.mem_cons.mp h' with rfl | h'
        · exact Or.inr (List.Sublist.cons_cons _ (List.singleton_sublist.mpr hb))
        · exact Or.inl h'
      · exact Or.inr (h'.cons _)

theorem SearchInv.enter (h : f.SearchInv ((l, s :: ss) :: rest) seen finished)
    (hsize : s < f.blocks.size) (hs : s ∉ seen) :
    f.SearchInv ((s, f.successors s) :: (l, ss) :: rest) (s :: seen) finished where
  walks := by
    obtain ⟨hw, hsucc, hrest⟩ := h.walks
    refine ⟨?_, fun t ht => ht, hw, ?_, hrest⟩
    · exact Walk.step hw (hsucc s (List.mem_cons_self ..)) hsize
    · exact fun t ht => hsucc t (List.mem_cons_of_mem _ ht)
  nodup := by
    have hnot : s ∉ ((l, ss) :: rest).map Prod.fst ++ finished := by
      intro hmem
      exact hs ((h.mem_seen s).mpr (List.mem_append.mp hmem))
    exact List.nodup_cons.mpr ⟨hnot, h.nodup⟩
  mem_seen k := by
    have hk := h.mem_seen k
    simp only [List.map_cons, List.mem_cons] at hk ⊢
    rw [hk]
    tauto
  closed k hk t ht hsize := List.mem_cons_of_mem _ (h.closed k hk t ht hsize)
  pending k ts hk t ht hsize := by
    rcases List.mem_cons.mp hk with hk | hk
    · cases hk
      exact Or.inr ht
    · rcases List.mem_cons.mp hk with hk | hk
      · cases hk
        rcases h.pending l (s :: ss) (List.mem_cons_self ..) t ht hsize with h' | h'
        · exact Or.inl (List.mem_cons_of_mem _ h')
        · rcases List.mem_cons.mp h' with rfl | h'
          · exact Or.inl (List.mem_cons_self ..)
          · exact Or.inr h'
      · rcases h.pending k ts (List.mem_cons_of_mem _ hk) t ht hsize with h' | h'
        · exact Or.inl (List.mem_cons_of_mem _ h')
        · exact Or.inr h'
  dominated b hb a ha := by
    rcases h.dominated b hb a ha with h' | h'
    · exact Or.inl (List.mem_cons_of_mem _ h')
    · exact Or.inr h'

theorem SearchInv.pass (h : f.SearchInv ((l, s :: ss) :: rest) seen finished)
    (hs : ¬ (s < f.blocks.size ∧ s ∉ seen)) :
    f.SearchInv ((l, ss) :: rest) seen finished where
  walks := ⟨h.walks.1, fun t ht => h.walks.2.1 t (List.mem_cons_of_mem _ ht), h.walks.2.2⟩
  nodup := h.nodup
  mem_seen := h.mem_seen
  closed := h.closed
  pending k ts hk t ht hsize := by
    rcases List.mem_cons.mp hk with hk | hk
    · cases hk
      rcases h.pending l (s :: ss) (List.mem_cons_self ..) t ht hsize with h' | h'
      · exact Or.inl h'
      · rcases List.mem_cons.mp h' with rfl | h'
        · exact Or.inl (Decidable.byContradiction fun hseen => hs ⟨hsize, hseen⟩)
        · exact Or.inr h'
    · exact h.pending k ts (List.mem_cons_of_mem _ hk) t ht hsize
  dominated := h.dominated

theorem SearchInv.search {stack : List (Label × List Label)}
    (h : f.SearchInv stack seen finished) :
    f.SearchInv [] (BlockGraph.search f.blocks.size f.successors stack seen finished).1
      (BlockGraph.search f.blocks.size f.successors stack seen finished).2 := by
  fun_induction BlockGraph.search f.blocks.size f.successors stack seen finished with
  | case1 seen finished => exact h
  | case2 seen finished l rest ih => exact ih h.finish
  | case3 seen finished l s ss rest hs ih => exact ih (h.enter hs.1 hs.2)
  | case4 seen finished l s ss rest hs ih => exact ih (h.pass hs)

theorem searchInv_start (h : f.entry < f.blocks.size) :
    f.SearchInv [(f.entry, f.successors f.entry)] [f.entry] [] where
  walks := ⟨Walk.start h, fun s hs => hs, trivial⟩
  nodup := List.nodup_singleton _
  mem_seen l := by simp
  closed l hl := by cases hl
  pending l ss hl s hs _ := by
    rw [List.mem_singleton] at hl
    cases hl
    exact Or.inr hs
  dominated b hb := by cases hb

/-! ### The order of a function -/

theorem searchInv_reachOrder (f : Function) :
    f.SearchInv [] f.reachOrder.1 f.reachOrder.2 := by
  unfold reachOrder
  by_cases h : f.entry < f.blocks.size
  · rw [if_pos h]
    exact (searchInv_start h).search
  · rw [if_neg h]
    refine ⟨trivial, List.nodup_nil, fun l => by simp, ?_, ?_, ?_⟩
    · intro l hl
      cases hl
    · intro l ss hl
      cases hl
    · intro b hb
      cases hb

theorem mem_reachOrder_iff (f : Function) (l : Label) :
    l ∈ f.reachOrder.1 ↔ l ∈ f.reachOrder.2 := by
  rw [f.searchInv_reachOrder.mem_seen l]
  simp

theorem order_nodup (f : Function) : f.order.Nodup := by
  have hinv := f.searchInv_reachOrder
  have hfin : f.reachOrder.2.Nodup := by simpa using hinv.nodup
  have hrest : ((List.range f.blocks.size).filter fun l => l ∉ f.reachOrder.1).Nodup :=
    List.nodup_range.filter _
  refine List.nodup_append.mpr ⟨hfin, hrest, ?_⟩
  rintro a ha b hb rfl
  have hnot := (List.mem_filter.mp hb).2
  simp only [decide_eq_true_eq] at hnot
  exact hnot ((f.mem_reachOrder_iff a).mpr ha)

theorem entry_mem_reachOrder (h : f.entry < f.blocks.size) : f.entry ∈ f.reachOrder.1 := by
  unfold reachOrder
  rw [if_pos h]
  generalize hstack : [(f.entry, f.successors f.entry)] = stack
  generalize hseen : [f.entry] = seen
  have hmem : f.entry ∈ seen := by rw [← hseen]; exact List.mem_singleton_self _
  clear hseen hstack
  generalize ([] : List Label) = finished
  fun_induction BlockGraph.search f.blocks.size f.successors stack seen finished with
  | case1 => exact hmem
  | case2 seen finished l rest ih => exact ih hmem
  | case3 seen finished l s ss rest hs ih => exact ih (List.mem_cons_of_mem _ hmem)
  | case4 seen finished l s ss rest hs ih => exact ih hmem

/-- Every block that can be reached is finished by the search. -/
theorem mem_reachOrder_of_reachable {l : Label} (h : f.Reachable l) : l ∈ f.reachOrder.2 := by
  obtain ⟨w, hw⟩ := h
  induction hw with
  | start h => exact (f.mem_reachOrder_iff _).mp (entry_mem_reachOrder h)
  | step _ hs hsize ih =>
      exact (f.mem_reachOrder_iff _).mp (f.searchInv_reachOrder.closed _ ih _ hs hsize)

/-- A block on every walk to another one is visited before it. -/
theorem sublist_order_of_strictlyDominates {a b : Label} (hb : f.Reachable b)
    (h : f.StrictlyDominates a b) : [a, b].Sublist f.order := by
  have hmem := mem_reachOrder_of_reachable hb
  rcases f.searchInv_reachOrder.dominated b hmem a h with h' | h'
  · cases h'
  · exact h'.trans (List.sublist_append_left _ _)

theorem mem_order_of_lt {l : Label} (h : l < f.blocks.size) : l ∈ f.order := by
  by_cases hl : l ∈ f.reachOrder.1
  · exact List.mem_append_left _ ((f.mem_reachOrder_iff l).mp hl)
  · exact List.mem_append_right _
      (List.mem_filter.mpr ⟨List.mem_range.mpr h, decide_eq_true hl⟩)

theorem search_singleton (next : Label → List Label) (ss : List Label) :
    BlockGraph.search 1 next [(0, ss)] [0] [] = ([0], [0]) := by
  induction ss with
  | nil =>
      rw [BlockGraph.search, BlockGraph.search]
  | cons s ss ih =>
      have hs : ¬ (s < 1 ∧ s ∉ [0]) := by
        rintro ⟨hlt, hnot⟩
        exact hnot (List.mem_singleton.mpr (Nat.lt_one_iff.mp hlt))
      rw [BlockGraph.search, if_neg hs, ih]

theorem order_eq_singleton (h : f.blocks.size = 1) : f.order = [0] := by
  by_cases hentry : f.entry = 0
  · have hreach : f.reachOrder = ([0], [0]) := by
      rw [reachOrder, h, hentry, if_pos Nat.one_pos]
      exact search_singleton _ _
    simp [order, hreach, h]
  · have hreach : f.reachOrder = ([], []) := by
      rw [reachOrder, h, if_neg fun hlt => hentry (Nat.lt_one_iff.mp hlt)]
    simp [order, hreach, h]

theorem order_congr {f g : Function} (hentry : f.entry = g.entry)
    (hsize : f.blocks.size = g.blocks.size) (hnext : f.successors = g.successors) :
    f.order = g.order := by
  have hreach : f.reachOrder = g.reachOrder := by
    unfold reachOrder
    rw [hentry, hsize, hnext]
  unfold order
  rw [hreach, hsize]

end Function

end SpmdArrays
