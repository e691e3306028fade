import SpmdArrays.Proofs.FileCalls.DeadCode

/-!
What removal of dead statements takes out and what it leaves. The names that the
closure loop arrives at are those that `Needs` derives, one rule for each way in which a
name is needed, so the statements that stay can be told without the loop: calls, stores,
and the assignments to these names. The count that comes with the result is the number
of all others, and a second removal finds none.
-/

namespace SpmdArrays

namespace Function

/-- The least set of names with the operands of all calls, stores and terminators in
it and, with a name, the operands of all assignments to it. Blocks count whether they can
be reached or not. -/
inductive Needs (f : Function) : String → Prop
  | call {t callee v : Var} {args : List Var} {kws : List (String × Var)}
      (hs : .call t callee args kws ∈ f.stmts) (hv : v ∈ callee :: (args ++ kws.map Prod.snd)) :
      Needs f v.name
  | store {t value v : Var} {index : Literal} (hs : .store t index value ∈ f.stmts)
      (hv : v ∈ [t, value]) : Needs f v.name
  | term {b : Block} {v : Var} (hb : b ∈ f.blocks.toList) (hv : v ∈ b.term.uses) :
      Needs f v.name
  | assign {t v : Var} {value : Expr} (hs : .assign t value ∈ f.stmts) (ht : Needs f t.name)
      (hv : v ∈ value.uses) : Needs f v.name

theorem needs_of_hasEffect {f : Function} {s : Stmt} (hs : s ∈ f.stmts)
    (he : s.hasEffect = true) {v : Var} (hv : v ∈ s.uses) : f.Needs v.name := by
  cases s with
  | assign t value => cases he
  | call t callee args kws => exact .call hs hv
  | store t index value => exact .store hs hv

theorem needsClosed_needs (f : Function) : f.NeedsClosed f.Needs where
  effect _ hb _ hs he _ hv := needs_of_hasEffect (List.mem_flatMap.mpr ⟨_, hb, hs⟩) he hv
  term _ hb _ hv := .term hb hv
  assign b hb s hs t ht hn v hv := by
    have hmem : s ∈ f.stmts := List.mem_flatMap.mpr ⟨b, hb, hs⟩
    cases s with
    | assign target value =>
        cases ht
        exact .assign hmem hn hv
    | call target callee args kws => exact .call hmem hv
    | store target index value => cases ht

/-- The loop arrives at the names that are needed. -/
theorem mem_neededNames_iff {f : Function} {x : String} : x ∈ f.neededNames ↔ f.Needs x := by
  have hclosed := f.neededNames_closed
  constructor
  · exact neededNames_least f.needsClosed_needs
  · intro h
    induction h with
    | call hs hv =>
        obtain ⟨b, hb, hsb⟩ := List.mem_flatMap.mp hs
        exact hclosed.effect b hb _ hsb rfl _ hv
    | store hs hv =>
        obtain ⟨b, hb, hsb⟩ := List.mem_flatMap.mp hs
        exact hclosed.effect b hb _ hsb rfl _ hv
    | term hb hv => exact hclosed.term _ hb _ hv
    | assign hs _ hv ih =>
        obtain ⟨b, hb, hsb⟩ := List.mem_flatMap.mp hs
        exact hclosed.assign b hb _ hsb _ rfl ih _ hv

def Stays (f : Function) : Stmt → Prop
  | .assign t _ => f.Needs t.name
  | .call .. | .store .. => True

theorem isKept_neededNames_iff {f : Function} {s : Stmt} :
    s.isKept f.neededNames = true ↔ f.Stays s := by
  cases s with
  | assign t value => simp [isKept_iff, Stmt.hasEffect, Stmt.target?, Stays, mem_neededNames_iff]
  | call t callee args kws => exact ⟨fun _ => trivial, fun _ => rfl⟩
  | store t index value => exact ⟨fun _ => trivial, fun _ => rfl⟩

/-! ### The number of dead statements -/

theorem foldl_deadCount (needed : Std.TreeSet String) (bs : List Block) (n : Nat) :
    bs.foldl (fun removed b => removed + b.deadCount needed) n =
      n + (bs.flatMap Block.body).countP fun s => !s.isKept needed := by
  induction bs generalizing n with
  | nil => rfl
  | cons b bs ih =>
      rw [List.foldl_cons, ih, List.flatMap_cons, List.countP_append, Nat.add_assoc]
      rfl

theorem removeDead_count (f : Function) :
    f.removeDead.1 = f.stmts.countP fun s => !s.isKept f.neededNames := by
  rw [removeDead, ← Array.foldl_toList, foldl_deadCount, Nat.zero_add]
  rfl

theorem removeDead_add_length (f : Function) :
    f.removeDead.1 + f.removeDead.2.stmts.length = f.stmts.length := by
  have hsplit := List.length_eq_countP_add_countP (Stmt.isKept f.neededNames) (l := f.stmts)
  rw [removeDead_count, show f.removeDead.2 = f.withoutDead from rfl, stmts_withoutDead,
    ← List.countP_eq_length_filter]
  simp only [Bool.not_eq_true, Bool.decide_eq_false] at hsplit
  omega

/-- In every block there stay, in their order, the calls, the stores and the assignments to
needed names. All others are counted, and a second removal counts none. -/
theorem removeDead_exact (f : Function) :
    ∃ keep : Stmt → Bool, (∀ s, keep s = true ↔ f.Stays s) ∧
      f.removeDead.2 = f.keeping keep ∧
      f.removeDead.1 = f.stmts.countP (fun s => !keep s) ∧
      f.removeDead.1 + f.removeDead.2.stmts.length = f.stmts.length ∧
      f.removeDead.2.removeDead = (0, f.removeDead.2) := by
  refine ⟨Stmt.isKept f.neededNames, fun _ => isKept_neededNames_iff, f.withoutDead_eq_keeping,
    f.removeDead_count, f.removeDead_add_length, ?_⟩
  have hagain : f.removeDead.2.removeDead.2 = f.removeDead.2 := f.withoutDead_withoutDead
  have hcount := f.removeDead.2.removeDead_add_length
  rw [hagain] at hcount
  exact Prod.ext (by omega) hagain

end Function

end SpmdArrays
