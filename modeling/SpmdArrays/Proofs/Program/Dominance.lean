import SpmdArrays.Proofs.Program.Assignments
import SpmdArrays.Proofs.Program.VisitingOrder

/-!
Which assignments lie behind a place of a function on every walk to it. A name is
available at a place when its assignment stands further up in the same block or
in a block that strictly dominates it. In a function where every name has one
assignment, and this one dominates the uses, a name is never available where it
is assigned, and what is available where it is assigned is available wherever it
is itself. These two facts are what carries knowledge about a name around loops.
-/

namespace SpmdArrays

namespace Function

variable {f : Function}

/-! ### Strict dominance -/

theorem Walk.exists_of_mem {w : List Label} {l k : Label} (h : f.Walk w l) (hk : k ∈ w) :
    ∃ w₁ w₂, w = w₁ ++ k :: w₂ ∧ f.Walk w₂ k := by
  induction h with
  | start _ => cases hk
  | @step w l s hw _ _ ih =>
      rcases List.mem_cons.mp hk with rfl | hk
      · exact ⟨[], w, rfl, hw⟩
      · obtain ⟨w₁, w₂, rfl, hw₂⟩ := ih hk
        exact ⟨l :: w₁, w₂, rfl, hw₂⟩

theorem StrictlyDominates.trans {a b c : Label} (hab : f.StrictlyDominates a b)
    (hbc : f.StrictlyDominates b c) : f.StrictlyDominates a c := by
  intro w hw
  obtain ⟨w₁, w₂, rfl, hw₂⟩ := hw.exists_of_mem (hbc w hw)
  exact List.mem_append_right _ (List.mem_cons_of_mem _ (hab w₂ hw₂))

/-- A shortest walk to a block does not go through it. -/
theorem Reachable.not_strictlyDominates_self {l : Label} (h : f.Reachable l) :
    ¬ f.StrictlyDominates l l := by
  intro hdom
  obtain ⟨w, hw⟩ := h
  induction hn : w.length using Nat.strongRecOn generalizing w with
  | ind n ih =>
      obtain ⟨w₁, w₂, rfl, hw₂⟩ := hw.exists_of_mem (hdom w hw)
      refine ih w₂.length ?_ w₂ hw₂ rfl
      rw [List.length_append, List.length_cons] at hn
      omega

/-! ### Places and available names -/

/-- The statements are a beginning of the block. -/
def Begins (f : Function) (l : Label) (front : List Stmt) : Prop :=
  ∃ b, f.block? l = some b ∧ front <+: b.body

/-- The name is assigned further up in the block, or in a block that every walk to
this one goes through. -/
def Available (f : Function) (l : Label) (front : List Stmt) (x : String) : Prop :=
  x ∈ definedNames front ∨
    ∃ a b, f.StrictlyDominates a l ∧ f.block? a = some b ∧ x ∈ definedNames b.body

/-- Every block can be reached, every name is assigned by at most one statement
and no parameter is, and the assignment of a name dominates its uses. -/
structure Ssa (f : Function) : Prop where
  settled : ∀ x, f.Settled x
  reachable : ∀ l b, f.block? l = some b → f.Reachable l
  uses : ∀ l front s, f.Begins l (front ++ [s]) → ∀ v ∈ s.uses,
    v.name ∈ definedNames f.stmts → f.Available l front v.name
  termUses : ∀ l b, f.block? l = some b → ∀ v ∈ b.term.uses,
    v.name ∈ definedNames f.stmts → f.Available l b.body v.name

/-- Every name is assigned by at most one statement, and this one dominates the uses of the
name. Whether the blocks can be reached, and whether a parameter is assigned, is left open. -/
structure SingleAssignment (f : Function) : Prop where
  once : ∀ x, (definedNames f.stmts).count x ≤ 1
  uses : ∀ l front s, f.Begins l (front ++ [s]) → ∀ v ∈ s.uses,
    v.name ∈ definedNames f.stmts → f.Available l front v.name

theorem Ssa.singleAssignment (h : f.Ssa) : f.SingleAssignment :=
  ⟨fun x => (h.settled x).once, h.uses⟩

theorem Begins.left {l : Label} {front more : List Stmt} (h : f.Begins l (front ++ more)) :
    f.Begins l front := by
  obtain ⟨b, hb, hfront⟩ := h
  exact ⟨b, hb, (List.prefix_append front more).trans hfront⟩

theorem Begins.mem_stmts {l : Label} {front : List Stmt} {s : Stmt}
    (h : f.Begins l (front ++ [s])) : s ∈ f.stmts := by
  obtain ⟨b, hb, hfront⟩ := h
  exact Function.mem_stmts hb (hfront.subset (List.mem_append_right _ (List.mem_singleton_self s)))

theorem Available.append {l : Label} {front : List Stmt} {x : String}
    (h : f.Available l front x) (more : List Stmt) : f.Available l (front ++ more) x := by
  rcases h with hx | hdom
  · exact Or.inl (by rw [definedNames_append]; exact List.mem_append_left _ hx)
  · exact Or.inr hdom

theorem available_append_singleton {l : Label} {front : List Stmt} {s : Stmt} {x : String}
    (h : f.Available l (front ++ [s]) x) : f.Available l front x ∨ s.Assigns x := by
  rcases h with hx | hdom
  · rw [definedNames_append] at hx
    rcases List.mem_append.mp hx with hx | hx
    · exact Or.inl (Or.inl hx)
    · obtain ⟨t, ht, htx⟩ := exists_of_mem_definedNames hx
      cases List.mem_singleton.mp ht
      exact Or.inr htx
  · exact Or.inl (Or.inr hdom)

theorem not_available_entry (h : f.entry < f.blocks.size) (x : String) :
    ¬ f.Available f.entry [] x := by
  rintro (hx | ⟨a, b, hdom, -, -⟩)
  · cases hx
  · cases hdom [] (.start h)

/-- What is available at the start of a block is so at the end of the blocks that
jump to it. -/
theorem Available.of_jump {l k : Label} {b b' : Block} {x : String} (h : f.Available k [] x)
    (hb : f.block? l = some b) (hk : k ∈ b.term.successors) (hb' : f.block? k = some b') :
    f.Available l b.body x := by
  rcases h with hx | ⟨a, c, hdom, hc, hx⟩
  · cases hx
  · by_cases hal : a = l
    · subst hal
      cases hb.symm.trans hc
      exact Or.inl hx
    · refine Or.inr ⟨a, c, fun w hw => ?_, hc, hx⟩
      have hsucc : k ∈ f.successors l := by
        rw [successors, hb]
        exact hk
      have hmem := hdom _ (.step hw hsucc (Array.getElem?_eq_some_iff.mp hb').1)
      exact (List.mem_cons.mp hmem).resolve_left hal

/-! ### One assignment for each name -/

theorem eq_of_count_flatMap {α : Type} {g : α → List String} {x : String} {as : List α}
    (h : (as.flatMap g).count x ≤ 1) {i j : Nat} {a b : α} (hi : as[i]? = some a)
    (hj : as[j]? = some b) (ha : x ∈ g a) (hb : x ∈ g b) : i = j := by
  induction as generalizing i j with
  | nil => cases hi
  | cons c as ih =>
      rw [List.flatMap_cons, List.count_append] at h
      -- the first list and the others together hold the name once
      have hrest : x ∈ g c → ∀ (k : Nat) d, as[k]? = some d → x ∉ g d := by
        intro hc k d hk hd
        have h₁ := List.count_pos_iff.mpr hc
        have h₂ : 0 < (as.flatMap g).count x :=
          List.count_pos_iff.mpr (List.mem_flatMap.mpr ⟨d, List.mem_of_getElem? hk, hd⟩)
        omega
      cases i with
      | zero =>
          cases hi
          cases j with
          | zero => rfl
          | succ j => exact absurd hb (hrest ha j b hj)
      | succ i =>
          cases j with
          | zero =>
              cases hj
              exact absurd ha (hrest hb i a hi)
          | succ j => rw [ih (by omega) hi hj]

theorem Settled.label_eq {x : String} (h : f.Settled x) {l k : Label} {b c : Block}
    (hb : f.block? l = some b) (hc : f.block? k = some c) (hxb : x ∈ definedNames b.body)
    (hxc : x ∈ definedNames c.body) : l = k := by
  have hl : f.blocks.toList[l]? = some b := by simpa [block?] using hb
  have hk : f.blocks.toList[k]? = some c := by simpa [block?] using hc
  have honce := h.once
  rw [definedNames_stmts] at honce
  exact eq_of_count_flatMap honce hl hk hxb hxc

theorem Settled.count_body_le {x : String} (h : f.Settled x) {l : Label} {b : Block}
    (hb : f.block? l = some b) : (definedNames b.body).count x ≤ 1 := by
  have hsub : (definedNames b.body).Sublist (definedNames f.stmts) := by
    rw [definedNames_stmts, List.flatMap_def]
    refine List.sublist_flatten_of_mem (List.mem_map.mpr ⟨b, ?_, rfl⟩)
    exact (Array.mem_of_getElem? hb).val
  exact Nat.le_trans (hsub.count_le x) h.once

theorem Settled.not_mem_front {x : String} (h : f.Settled x) {l : Label} {front more : List Stmt}
    {s : Stmt} (hs : f.Begins l (front ++ s :: more)) (hsx : s.Assigns x) :
    x ∉ definedNames front ∧ x ∉ definedNames more := by
  obtain ⟨b, hb, rest, hbody⟩ := hs
  have hcount := h.count_body_le hb
  rw [← hbody] at hcount
  simp only [definedNames_append, definedNames_cons, List.count_append] at hcount
  have hone : (s.target?.map Var.name).toList.count x = 1 := by
    rw [hsx]
    exact List.count_singleton_self
  constructor
  · intro hmem
    have := List.count_pos_iff.mpr hmem
    omega
  · intro hmem
    have := List.count_pos_iff.mpr hmem
    omega

theorem Settled.front_eq {x : String} (h : f.Settled x) {l : Label} {b : Block}
    (hb : f.block? l = some b) {front front' rest rest' : List Stmt} {s s' : Stmt}
    (hbody : b.body = front ++ s :: rest) (hbody' : b.body = front' ++ s' :: rest')
    (hs : s.Assigns x) (hs' : s'.Assigns x) : front = front' := by
  have hnot := h.not_mem_front (l := l) ⟨b, hb, [], by rw [List.append_nil, hbody]⟩ hs
  have hnot' := h.not_mem_front (l := l) ⟨b, hb, [], by rw [List.append_nil, hbody']⟩ hs'
  rcases append_eq_append_cons (hbody.symm.trans hbody') with ⟨more, rfl⟩ | ⟨more, rfl, hmore⟩
  · exact absurd (mem_definedNames (by simp) hs') hnot.1
  · cases more with
    | nil => rw [List.append_nil]
    | cons u more =>
        cases hmore
        exact absurd (mem_definedNames (by simp) hs) hnot'.1

namespace Ssa

theorem not_assigns_of_available (h : f.Ssa) {l : Label} {front : List Stmt} {s : Stmt}
    (hs : f.Begins l (front ++ [s])) {x : String} (hx : f.Available l front x) :
    ¬ s.Assigns x := by
  intro hsx
  rcases hx with hx | ⟨a, c, hdom, hc, hx⟩
  · exact ((h.settled x).not_mem_front hs hsx).1 hx
  · obtain ⟨b, hb, hbody⟩ := hs
    have hxb : x ∈ definedNames b.body :=
      mem_definedNames (hbody.subset (List.mem_append_right _ (List.mem_singleton_self s))) hsx
    have hal : a = l := (h.settled x).label_eq hc hb hx hxb
    subst hal
    exact (h.reachable a c hc).not_strictlyDominates_self hdom

/-- What is available where a name is assigned is so wherever the name is. -/
theorem available_of_assigns (h : f.Ssa) {l k : Label} {front front' : List Stmt} {s : Stmt}
    {x y : String} (hs : f.Begins l (front ++ [s])) (hsx : s.Assigns x)
    (hy : f.Available l front y) (hk : f.Begins k front') (hx : f.Available k front' x) :
    f.Available k front' y := by
  obtain ⟨b, hb, rest, hbody⟩ := hs
  have hxb : x ∈ definedNames b.body := by
    rw [← hbody]
    exact mem_definedNames (by simp) hsx
  rcases hx with hx | ⟨a, c, hdom, hc, hx⟩
  · -- both places are in one block, and the assignment is the earlier one
    obtain ⟨c, hc, rest', hbody'⟩ := hk
    have hxc : x ∈ definedNames c.body := by
      rw [← hbody', definedNames_append]
      exact List.mem_append_left _ hx
    cases (h.settled x).label_eq hb hc hxb hxc
    cases hb.symm.trans hc
    have hbegins : f.Begins l (front ++ s :: rest) := ⟨b, hb, [], by simpa using hbody⟩
    have hnot := (h.settled x).not_mem_front hbegins hsx
    have hsplit : front' ++ rest' = front ++ (s :: rest) := by
      rw [hbody', ← hbody, List.append_assoc]
      rfl
    rcases List.append_eq_append_iff.mp hsplit with ⟨more, rfl, -⟩ | ⟨more, rfl, -⟩
    · refine absurd ?_ hnot.1
      rw [definedNames_append]
      exact List.mem_append_left _ hx
    · exact hy.append more
  · cases (h.settled x).label_eq hb hc hxb hx
    rcases hy with hy | ⟨a', c', hdom', hc', hy⟩
    · refine Or.inr ⟨l, b, hdom, hb, ?_⟩
      rw [← hbody, definedNames_append, definedNames_append]
      exact List.mem_append_left _ (List.mem_append_left _ hy)
    · exact Or.inr ⟨a', c', hdom'.trans hdom, hc', hy⟩

end Ssa

/-! ### Names that keep what they hold -/

/-- Whatever the name holds here it holds since its assignment, if it has one. -/
def Given (f : Function) (l : Label) (front : List Stmt) (x : String) : Prop :=
  x ∈ definedNames f.stmts → f.Available l front x

/-- Where the first name is given, so is the second. -/
def Follows (f : Function) (x y : String) : Prop :=
  ∀ l front, f.Begins l front → f.Given l front x → f.Given l front y

theorem given_append_singleton {l : Label} {front : List Stmt} {s : Stmt} {x : String}
    (h : f.Given l (front ++ [s]) x) : f.Given l front x ∨ s.Assigns x := by
  by_cases hx : x ∈ definedNames f.stmts
  · exact (available_append_singleton (h hx)).imp_left fun hav _ => hav
  · exact Or.inl fun hmem => absurd hmem hx

theorem Given.of_jump {l k : Label} {b b' : Block} {x : String} (h : f.Given k [] x)
    (hb : f.block? l = some b) (hk : k ∈ b.term.successors) (hb' : f.block? k = some b') :
    f.Given l b.body x :=
  fun hx => (h hx).of_jump hb hk hb'

theorem not_mem_of_given_entry (h : f.entry < f.blocks.size) {x : String}
    (hx : f.Given f.entry [] x) : x ∉ definedNames f.stmts :=
  fun hmem => not_available_entry h x (hx hmem)

theorem Follows.trans {x y z : String} (hxy : f.Follows x y) (hyz : f.Follows y z) :
    f.Follows x z :=
  fun l front hl hx => hyz l front hl (hxy l front hl hx)

namespace Ssa

theorem given_of_uses (h : f.Ssa) {l : Label} {front : List Stmt} {s : Stmt}
    (hs : f.Begins l (front ++ [s])) {v : Var} (hv : v ∈ s.uses) : f.Given l front v.name :=
  h.uses l front s hs v hv

theorem not_assigns_of_given (h : f.Ssa) {l : Label} {front : List Stmt} {s : Stmt}
    (hs : f.Begins l (front ++ [s])) {x : String} (hx : f.Given l front x) : ¬ s.Assigns x :=
  fun hsx => h.not_assigns_of_available hs (hx (mem_definedNames hs.mem_stmts hsx)) hsx

/-- A name follows the names that its assignment uses. -/
theorem follows_of_assigns (h : f.Ssa) {l : Label} {front : List Stmt} {s : Stmt}
    (hs : f.Begins l (front ++ [s])) {x y : String} (hsx : s.Assigns x)
    (hy : f.Given l front y) : f.Follows x y := by
  intro k front' hk hx hmem
  exact h.available_of_assigns hs hsx (hy hmem) hk (hx (mem_definedNames hs.mem_stmts hsx))

end Ssa

/-! ### Checking with a table of dominators -/

/-- A table that fits the edges lists strict dominators only. -/
theorem strictlyDominates_of_table {table : Label → List Label} (hentry : table f.entry = [])
    (hedges : ∀ l < f.blocks.size, ∀ k ∈ f.successors l, ∀ a ∈ table k, a = l ∨ a ∈ table l)
    {a b : Label} (h : a ∈ table b) : f.StrictlyDominates a b := by
  intro w hw
  induction hw with
  | start _ =>
      rw [hentry] at h
      cases h
  | step hw hs _ ih =>
      rcases hedges _ hw.lt_size _ hs a h with rfl | h
      · exact List.mem_cons_self ..
      · exact List.mem_cons_of_mem _ (ih h)

def assignedIn (f : Function) (l : Label) : List String :=
  ((f.block? l).map fun b => definedNames b.body).getD []

/-- What the statements use of the assigned names is known, or assigned by a statement
before. -/
def usesKnown (assigned : List String) : List String → List Stmt → Bool
  | _, [] => true
  | known, s :: rest =>
    (s.uses.all fun v => v.name ∉ assigned ∨ v.name ∈ known) &&
      usesKnown assigned (known ++ definedNames [s]) rest

theorem mem_of_usesKnown {assigned known : List String} {front rest : List Stmt} {s : Stmt}
    (h : usesKnown assigned known (front ++ s :: rest) = true) {v : Var} (hv : v ∈ s.uses)
    (hassigned : v.name ∈ assigned) : v.name ∈ known ++ definedNames front := by
  induction front generalizing known with
  | nil =>
      rw [List.nil_append, usesKnown, Bool.and_eq_true] at h
      have hs := of_decide_eq_true (List.all_eq_true.mp h.1 v hv)
      exact List.mem_append_left _ (hs.resolve_left (not_not_intro hassigned))
  | cons u front ih =>
      rw [List.cons_append, usesKnown, Bool.and_eq_true] at h
      have hmem := ih h.2
      rwa [List.append_assoc, ← definedNames_append] at hmem

/-- The conditions on assignments and uses, with the dominators of the table. -/
structure Tabled (f : Function) (table : Label → List Label) : Prop where
  once : (definedNames f.stmts).Nodup
  params : ∀ x ∈ f.params, x ∉ definedNames f.stmts
  entry : table f.entry = []
  edges : ∀ l < f.blocks.size, ∀ k ∈ f.successors l, ∀ a ∈ table k, a = l ∨ a ∈ table l
  uses : ∀ l < f.blocks.size, ∀ b ∈ f.block? l,
    usesKnown (definedNames f.stmts) ((table l).flatMap f.assignedIn) b.body = true
  termUses : ∀ l < f.blocks.size, ∀ b ∈ f.block? l, ∀ v ∈ b.term.uses,
    v.name ∈ definedNames f.stmts →
      v.name ∈ (table l).flatMap f.assignedIn ++ definedNames b.body

theorem Tabled.available {table : Label → List Label} (h : f.Tabled table) {l : Label}
    {front : List Stmt} {x : String}
    (hx : x ∈ (table l).flatMap f.assignedIn ++ definedNames front) : f.Available l front x := by
  rcases List.mem_append.mp hx with hx | hx
  · obtain ⟨a, ha, hxa⟩ := List.mem_flatMap.mp hx
    rw [assignedIn] at hxa
    cases hb : f.block? a with
    | none =>
        rw [hb] at hxa
        cases hxa
    | some b =>
        rw [hb] at hxa
        exact Or.inr ⟨a, b, strictlyDominates_of_table h.entry h.edges ha, hb, hxa⟩
  · exact Or.inl hx

theorem Tabled.ssa {table : Label → List Label} (h : f.Tabled table)
    (hreach : ∀ l < f.blocks.size, f.Reachable l) : f.Ssa where
  settled x := ⟨List.nodup_iff_count.mp h.once x, h.params x⟩
  reachable l b hb := hreach l (Array.getElem?_eq_some_iff.mp hb).1
  uses l front s hs v hv hassigned := by
    obtain ⟨b, hb, rest, hbody⟩ := hs
    have huses := h.uses l (Array.getElem?_eq_some_iff.mp hb).1 b hb
    rw [← hbody, List.append_assoc] at huses
    exact h.available (mem_of_usesKnown huses hv hassigned)
  termUses l b hb v hv hassigned :=
    h.available (h.termUses l (Array.getElem?_eq_some_iff.mp hb).1 b hb v hv hassigned)

end Function

end SpmdArrays
