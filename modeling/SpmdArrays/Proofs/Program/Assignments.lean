import SpmdArrays.Program.Function

/-!
Which names the statements of a function assign, and how often. Where a name is
assigned by one statement only, the name and the place of this statement
determine each other.
-/

namespace SpmdArrays

theorem append_eq_append_cons {α : Type} {a b l r : List α} {x : α} (h : a ++ b = l ++ x :: r) :
    (∃ r', a = l ++ x :: r') ∨ ∃ l', l = a ++ l' ∧ b = l' ++ x :: r := by
  rcases List.append_eq_append_iff.mp h with ⟨c, rfl, hc⟩ | ⟨c, rfl, hc⟩
  · exact Or.inr ⟨c, rfl, hc⟩
  · cases c with
    | nil => exact Or.inr ⟨[], by simp, hc.symm⟩
    | cons y c =>
        cases hc
        exact Or.inl ⟨c, rfl⟩

/-- The statement assigns the name as a whole. -/
def Stmt.Assigns (s : Stmt) (x : String) : Prop := s.target?.map Var.name = some x

def definedNames (ss : List Stmt) : List String := ss.filterMap fun s => s.target?.map Var.name

@[simp] theorem definedNames_nil : definedNames [] = [] := rfl

theorem definedNames_append (ss ts : List Stmt) :
    definedNames (ss ++ ts) = definedNames ss ++ definedNames ts :=
  List.filterMap_append

theorem definedNames_cons (s : Stmt) (ss : List Stmt) :
    definedNames (s :: ss) = (s.target?.map Var.name).toList ++ definedNames ss := by
  cases h : s.target? <;> simp [definedNames, h]

theorem mem_definedNames {ss : List Stmt} {s : Stmt} {x : String} (hs : s ∈ ss)
    (hx : s.Assigns x) : x ∈ definedNames ss :=
  List.mem_filterMap.mpr ⟨s, hs, hx⟩

theorem exists_of_mem_definedNames {ss : List Stmt} {x : String} (h : x ∈ definedNames ss) :
    ∃ s ∈ ss, s.Assigns x :=
  List.mem_filterMap.mp h

/-- A name that a row assigns once determines the statement that does. -/
theorem eq_of_assigns {ss : List Stmt} {x : String} (h : (definedNames ss).count x ≤ 1)
    {s t : Stmt} (hs : s ∈ ss) (ht : t ∈ ss) (hsx : s.Assigns x) (htx : t.Assigns x) : s = t := by
  induction ss with
  | nil => cases hs
  | cons u ss ih =>
      rw [definedNames_cons, List.count_append] at h
      -- the rest does not assign the name again if the first statement does
      have hfirst : u.Assigns x → x ∉ definedNames ss := by
        intro hu hmem
        have hone : (u.target?.map Var.name).toList.count x = 1 := by
          rw [hu]
          exact List.count_singleton_self
        have := List.count_pos_iff.mpr hmem
        omega
      rcases List.mem_cons.mp hs with rfl | hs' <;> rcases List.mem_cons.mp ht with rfl | ht'
      · rfl
      · exact absurd (mem_definedNames ht' htx) (hfirst hsx)
      · exact absurd (mem_definedNames hs' hsx) (hfirst htx)
      · exact ih (by omega) hs' ht'

namespace Function

def stmts (f : Function) : List Stmt := f.blocks.toList.flatMap Block.body

theorem mem_blocks_of_block? {f : Function} {l : Label} {b : Block} (h : f.block? l = some b) :
    b ∈ f.blocks.toList :=
  (Array.mem_of_getElem? h).val

theorem mem_stmts {f : Function} {l : Label} {b : Block} (hb : f.block? l = some b) {s : Stmt}
    (hs : s ∈ b.body) : s ∈ f.stmts :=
  List.mem_flatMap.mpr ⟨b, mem_blocks_of_block? hb, hs⟩

theorem exists_block_of_mem_stmts {f : Function} {s : Stmt} (hs : s ∈ f.stmts) :
    ∃ l b, f.block? l = some b ∧ s ∈ b.body := by
  obtain ⟨b, hb, hsb⟩ := List.mem_flatMap.mp hs
  obtain ⟨l, hl⟩ := List.mem_iff_getElem?.mp hb
  exact ⟨l, b, by simpa [block?] using hl, hsb⟩

theorem definedNames_stmts (f : Function) :
    definedNames f.stmts = f.blocks.toList.flatMap fun b => definedNames b.body :=
  List.filterMap_flatMap ..

/-- At most one statement assigns the name, and none if it is a parameter. -/
structure Settled (f : Function) (x : String) : Prop where
  once : (definedNames f.stmts).count x ≤ 1
  param : x ∈ f.params → x ∉ definedNames f.stmts

theorem Settled.eq_of_assigns {f : Function} {x : String} (h : f.Settled x) {u w : Stmt}
    (hu : u ∈ f.stmts) (hw : w ∈ f.stmts) (hux : u.Assigns x) (hwx : w.Assigns x) : u = w :=
  SpmdArrays.eq_of_assigns h.once hu hw hux hwx

end Function

end SpmdArrays
