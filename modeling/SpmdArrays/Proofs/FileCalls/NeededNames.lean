import SpmdArrays.FileCalls.DeadCode

/-!
The needed names of a function as a least fixed point. They contain the roots,
they are closed under the definitions of the function, and every other set with
these two properties contains them. A search with a queue finds the same names.
Nothing else about the closure loop is used elsewhere; in particular dropping
assignments to names that are not needed changes neither the needed names nor
what a later removal leaves.
-/

namespace SpmdArrays

/-! ### The closure loop -/

theorem mem_closeNeeded_of_mem {needed : Std.TreeSet String} {pending : List Dependency}
    {x : String} (h : x ∈ needed) : x ∈ closeNeeded needed pending := by
  fun_induction closeNeeded needed pending with
  | case1 => exact h
  | case2 needed pending _ ih =>
      apply ih
      rw [Std.TreeSet.mem_insertMany_list]
      exact Or.inl h

theorem mem_definitionsOf {needed : Std.TreeSet String} {pending : List Dependency}
    {d : Dependency} : d ∈ definitionsOf needed pending ↔ d ∈ pending ∧ d.target ∈ needed := by
  rw [definitionsOf, List.mem_filter, Std.TreeSet.contains_iff_mem]

theorem mem_otherDefinitions {needed : Std.TreeSet String} {pending : List Dependency}
    {d : Dependency} :
    d ∈ otherDefinitions needed pending ↔ d ∈ pending ∧ d.target ∉ needed := by
  rw [otherDefinitions, List.mem_filter, Bool.not_eq_true', ← Std.TreeSet.contains_iff_mem,
    Bool.not_eq_true]

/-- The result is closed: what the definitions of its names use is in it. -/
theorem closeNeeded_closed {needed : Std.TreeSet String} {pending : List Dependency}
    {d : Dependency} (hd : d ∈ pending) (ht : d.target ∈ closeNeeded needed pending)
    {x : String} (hx : x ∈ d.uses) : x ∈ closeNeeded needed pending := by
  fun_induction closeNeeded needed pending with
  | case1 needed pending hempty =>
      have hmem : d ∈ definitionsOf needed pending := mem_definitionsOf.mpr ⟨hd, ht⟩
      rw [List.isEmpty_iff.mp hempty] at hmem
      cases hmem
  | case2 needed pending _ ih =>
      by_cases hn : d.target ∈ needed
      · apply mem_closeNeeded_of_mem
        rw [Std.TreeSet.mem_insertMany_list]
        right
        rw [List.contains_iff_mem]
        exact List.mem_flatMap.mpr ⟨d, mem_definitionsOf.mpr ⟨hd, hn⟩, hx⟩
      · exact ih (mem_otherDefinitions.mpr ⟨hd, hn⟩) ht

/-- The result is least: a closed set above the start is above the result. -/
theorem closeNeeded_least {P : String → Prop} {needed : Std.TreeSet String}
    {pending : List Dependency} (hneeded : ∀ x ∈ needed, P x)
    (hclosed : ∀ d ∈ pending, P d.target → ∀ x ∈ d.uses, P x)
    {x : String} (hx : x ∈ closeNeeded needed pending) : P x := by
  fun_induction closeNeeded needed pending with
  | case1 needed => exact hneeded x hx
  | case2 needed pending _ ih =>
      refine ih ?_ ?_ hx
      · intro y hy
        rw [Std.TreeSet.mem_insertMany_list, List.contains_iff_mem] at hy
        rcases hy with hy | hy
        · exact hneeded y hy
        · obtain ⟨d, hd, hyd⟩ := List.mem_flatMap.mp hy
          obtain ⟨hmem, ht⟩ := mem_definitionsOf.mp hd
          exact hclosed d hmem (hneeded _ ht) y hyd
      · intro d hd
        exact hclosed d (mem_otherDefinitions.mp hd).1

theorem closeNeeded_mono {needed needed' : Std.TreeSet String} {pending : List Dependency}
    (h : ∀ x ∈ needed, x ∈ needed') {x : String} (hx : x ∈ closeNeeded needed pending) :
    x ∈ closeNeeded needed' pending :=
  closeNeeded_least (fun y hy => mem_closeNeeded_of_mem (h y hy))
    (fun _ hd ht _ hy => closeNeeded_closed hd ht hy) hx

/-- The closure with a bound on its rounds, which evaluates. -/
def closeWithin : Nat → Std.TreeSet String → List Dependency → Option (Std.TreeSet String)
  | 0, _, _ => none
  | rounds + 1, needed, pending =>
    if (definitionsOf needed pending).isEmpty then some needed
    else
      closeWithin rounds
        (needed.insertMany ((definitionsOf needed pending).flatMap Dependency.uses))
        (otherDefinitions needed pending)

theorem closeNeeded_eq_of_closeWithin {rounds : Nat} {needed result : Std.TreeSet String}
    {pending : List Dependency} (h : closeWithin rounds needed pending = some result) :
    closeNeeded needed pending = result := by
  induction rounds generalizing needed pending with
  | zero => cases h
  | succ rounds ih =>
      rw [closeWithin] at h
      rw [closeNeeded]
      split at h
      · rename_i hempty
        rw [if_pos hempty]
        exact Option.some.inj h
      · rename_i hempty
        rw [if_neg hempty]
        exact ih h

/-! ### One name after the other

The same names are found with a queue. Names that are found to be needed wait in it until it is
their turn, and then the names that their definitions use are found. -/

def usesOf (defs : List Dependency) (name : String) : List String :=
  (defs.filter fun d => d.target = name).flatMap Dependency.uses

theorem mem_usesOf {defs : List Dependency} {name x : String} :
    x ∈ usesOf defs name ↔ ∃ d ∈ defs, d.target = name ∧ x ∈ d.uses := by
  simp [usesOf, and_assoc]

/-- The names that were found, and those of them that wait. -/
structure Marking where
  found : Std.TreeSet String := {}
  queue : List String := []

namespace Marking

variable {defs : List Dependency} {m : Marking} {name x : String} {names : List String}

def mark (m : Marking) (name : String) : Marking :=
  if m.found.contains name then m else ⟨m.found.insert name, m.queue ++ [name]⟩

/-- The uses of names that were not found, and the names that wait. -/
def left (defs : List Dependency) (m : Marking) : Nat :=
  ((defs.flatMap Dependency.uses).filter fun x => !m.found.contains x).length + m.queue.length

theorem left_mark (hname : name ∈ defs.flatMap Dependency.uses) :
    (m.mark name).left defs ≤ m.left defs := by
  unfold mark
  split
  · exact Nat.le_refl _
  · rename_i hnew
    have hfilter : ((defs.flatMap Dependency.uses).filter fun x =>
        !(m.found.insert name).contains x) =
        ((defs.flatMap Dependency.uses).filter fun x => !m.found.contains x).filter
          fun x => x ≠ name := by
      rw [List.filter_filter]
      refine List.filter_congr fun x _ => ?_
      rw [Std.TreeSet.contains_insert]
      by_cases hx : x = name
      · simp [hx]
      · simp [hx, Ne.symm hx]
    have hlt : ((defs.flatMap Dependency.uses).filter fun x =>
        !(m.found.insert name).contains x).length <
        ((defs.flatMap Dependency.uses).filter fun x => !m.found.contains x).length := by
      rw [hfilter, List.length_filter_lt_length_iff_exists]
      have hmem : name ∈ (defs.flatMap Dependency.uses).filter fun x => !m.found.contains x := by
        rw [List.mem_filter, Bool.eq_false_iff.mpr hnew]
        exact ⟨hname, rfl⟩
      exact ⟨name, hmem, by simp⟩
    simp only [left, List.length_append, List.length_singleton]
    omega

theorem left_foldl_mark (hnames : ∀ name ∈ names, name ∈ defs.flatMap Dependency.uses) :
    (names.foldl mark m).left defs ≤ m.left defs := by
  induction names generalizing m with
  | nil => exact Nat.le_refl _
  | cons name names ih =>
      exact Nat.le_trans (ih fun y hy => hnames y (List.mem_cons_of_mem _ hy))
        (left_mark (hnames name (List.mem_cons_self ..)))

/-- Takes names from the front of the queue until it is empty. -/
def drain (defs : List Dependency) (m : Marking) : Std.TreeSet String :=
  match _hqueue : m.queue with
  | [] => m.found
  | name :: queue => drain defs ((usesOf defs name).foldl mark ⟨m.found, queue⟩)
termination_by m.left defs
decreasing_by
  have huses : ∀ x ∈ usesOf defs name, x ∈ defs.flatMap Dependency.uses := by
    intro x hx
    obtain ⟨d, hd, -, hxd⟩ := mem_usesOf.mp hx
    exact List.mem_flatMap.mpr ⟨d, hd, hxd⟩
  have hle : ((usesOf defs name).foldl mark ⟨m.found, queue⟩).left defs ≤
      left defs ⟨m.found, queue⟩ := left_foldl_mark huses
  have hpop : left defs ⟨m.found, queue⟩ + 1 = m.left defs := by
    simp only [left, _hqueue, List.length_cons]
    omega
  omega

theorem mem_found_mark : x ∈ (m.mark name).found ↔ x = name ∨ x ∈ m.found := by
  unfold mark
  split
  · rename_i hname
    rw [Std.TreeSet.contains_iff_mem] at hname
    exact ⟨Or.inr, fun hx => hx.elim (fun heq => heq ▸ hname) id⟩
  · rw [Std.TreeSet.mem_insert, Std.LawfulEqCmp.compare_eq_iff_eq, eq_comm]

theorem mem_queue_mark : x ∈ (m.mark name).queue ↔ x = name ∧ x ∉ m.found ∨ x ∈ m.queue := by
  unfold mark
  split
  · rename_i hname
    rw [Std.TreeSet.contains_iff_mem] at hname
    exact ⟨Or.inr, fun hx => hx.elim (fun hnew => absurd (hnew.1 ▸ hname) hnew.2) id⟩
  · rename_i hname
    rw [Std.TreeSet.contains_iff_mem] at hname
    rw [List.mem_append, List.mem_singleton]
    grind

theorem mem_found_foldl_mark : x ∈ (names.foldl mark m).found ↔ x ∈ names ∨ x ∈ m.found := by
  induction names generalizing m with
  | nil => simp
  | cons name names ih =>
      rw [List.foldl_cons, ih, mem_found_mark, List.mem_cons]
      grind

theorem mem_queue_foldl_mark :
    x ∈ (names.foldl mark m).queue ↔ x ∈ names ∧ x ∉ m.found ∨ x ∈ m.queue := by
  induction names generalizing m with
  | nil => simp
  | cons name names ih =>
      rw [List.foldl_cons, ih, mem_found_mark, mem_queue_mark, List.mem_cons]
      grind

/-- Who waits was found, and whoever was found and does not wait was followed. -/
structure Sound (defs : List Dependency) (m : Marking) : Prop where
  waiting : ∀ x ∈ m.queue, x ∈ m.found
  followed : ∀ d ∈ defs, d.target ∈ m.found → d.target ∉ m.queue → ∀ x ∈ d.uses, x ∈ m.found

theorem Sound.pop {queue : List String} (h : m.Sound defs) (hqueue : m.queue = name :: queue) :
    ((usesOf defs name).foldl mark ⟨m.found, queue⟩).Sound defs := by
  refine ⟨fun x hx => ?_, fun d hd ht hidle x hx => ?_⟩
  · rw [mem_found_foldl_mark]
    rcases mem_queue_foldl_mark.mp hx with ⟨hnew, -⟩ | hold
    · exact Or.inl hnew
    · exact Or.inr (h.waiting x (hqueue ▸ List.mem_cons_of_mem _ hold))
  · rw [mem_found_foldl_mark] at ht ⊢
    rw [mem_queue_foldl_mark] at hidle
    by_cases hname : d.target = name
    · exact Or.inl (mem_usesOf.mpr ⟨d, hd, hname, hx⟩)
    · -- it was found before, since it would wait if it were new
      have hold : d.target ∈ m.found :=
        Classical.byContradiction fun hnew => hidle (Or.inl ⟨ht.resolve_right hnew, hnew⟩)
      refine Or.inr (h.followed d hd hold (fun hmem => hidle (Or.inr ?_)) x hx)
      rw [hqueue] at hmem
      exact (List.mem_cons.mp hmem).resolve_left hname

/-- Following the queue and following all definitions at once find the same names. -/
theorem mem_drain_iff (h : m.Sound defs) :
    x ∈ m.drain defs ↔ x ∈ closeNeeded m.found defs := by
  fun_induction drain defs m with
  | case1 m hqueue =>
      refine ⟨mem_closeNeeded_of_mem, fun hx => ?_⟩
      refine closeNeeded_least (fun _ => id) (fun d hd ht => ?_) hx
      exact h.followed d hd ht (by rw [hqueue]; exact List.not_mem_nil)
  | case2 m name queue hqueue ih =>
      rw [ih (h.pop hqueue)]
      have hname : name ∈ closeNeeded m.found defs :=
        mem_closeNeeded_of_mem (h.waiting name (hqueue ▸ List.mem_cons_self ..))
      constructor
      · refine closeNeeded_least (fun y hy => ?_) fun d hd ht y hy => closeNeeded_closed hd ht hy
        rcases mem_found_foldl_mark.mp hy with hy | hy
        · obtain ⟨d, hd, rfl, hyd⟩ := mem_usesOf.mp hy
          exact closeNeeded_closed hd hname hyd
        · exact mem_closeNeeded_of_mem hy
      · refine closeNeeded_mono fun y hy => ?_
        exact mem_found_foldl_mark.mpr (Or.inr hy)

end Marking

/-! ### The needed names of a function -/

namespace Function

theorem mem_neededNames_iff_drain {f : Function} {x : String} :
    x ∈ f.neededNames ↔
      x ∈ ((f.blocks.toList.flatMap Block.roots).foldl Marking.mark {}).drain
        (f.blocks.toList.flatMap Block.dependencies) := by
  have hfound : ∀ y, y ∈ ((f.blocks.toList.flatMap Block.roots).foldl Marking.mark {}).found ↔
      y ∈ f.blocks.toList.flatMap Block.roots := by
    intro y
    simp [Marking.mem_found_foldl_mark]
  have hqueue : ∀ y, y ∈ ((f.blocks.toList.flatMap Block.roots).foldl Marking.mark {}).queue ↔
      y ∈ f.blocks.toList.flatMap Block.roots := by
    intro y
    simp [Marking.mem_queue_foldl_mark]
  have hroots : ∀ y, y ∈ Std.TreeSet.ofList (f.blocks.toList.flatMap Block.roots) ↔
      y ∈ f.blocks.toList.flatMap Block.roots := by
    intro y
    rw [Std.TreeSet.mem_ofList, List.contains_iff_mem]
  rw [Marking.mem_drain_iff ⟨fun y hy => (hfound y).mpr ((hqueue y).mp hy),
    fun d _ ht hidle => absurd ((hqueue _).mpr ((hfound _).mp ht)) hidle⟩]
  exact ⟨closeNeeded_mono fun y hy => (hfound y).mpr ((hroots y).mp hy),
    closeNeeded_mono fun y hy => (hroots y).mpr ((hfound y).mp hy)⟩

theorem withoutDead_blocks_of_closeWithin {f : Function} {bs : Array Block} {rounds : Nat}
    (h : ((closeWithin rounds (Std.TreeSet.ofList (f.blocks.toList.flatMap Block.roots))
      (f.blocks.toList.flatMap Block.dependencies)).map
        fun needed => f.blocks.map (Block.withoutDead needed)) = some bs) :
    f.withoutDead.blocks = bs := by
  obtain ⟨needed, hneeded, rfl⟩ := Option.map_eq_some_iff.mp h
  rw [withoutDead, neededNames, closeNeeded_eq_of_closeWithin hneeded]

/-- What the needed names are made of, block by block. -/
structure NeedsClosed (f : Function) (P : String → Prop) : Prop where
  effect : ∀ b ∈ f.blocks.toList, ∀ s ∈ b.body, s.hasEffect → ∀ v ∈ s.uses, P v.name
  term : ∀ b ∈ f.blocks.toList, ∀ v ∈ b.term.uses, P v.name
  assign : ∀ b ∈ f.blocks.toList, ∀ s ∈ b.body, ∀ t, s.target? = some t → P t.name →
    ∀ v ∈ s.uses, P v.name

theorem neededNames_closed (f : Function) : f.NeedsClosed (· ∈ f.neededNames) where
  effect b hb s hs he v hv := by
    apply mem_closeNeeded_of_mem
    rw [Std.TreeSet.mem_ofList, List.contains_iff_mem]
    refine List.mem_flatMap.mpr ⟨b, hb, List.mem_append_left _ ?_⟩
    exact List.mem_flatMap.mpr ⟨s, List.mem_filter.mpr ⟨hs, he⟩, List.mem_map_of_mem hv⟩
  term b hb v hv := by
    apply mem_closeNeeded_of_mem
    rw [Std.TreeSet.mem_ofList, List.contains_iff_mem]
    exact List.mem_flatMap.mpr ⟨b, hb, List.mem_append_right _ (List.mem_map_of_mem hv)⟩
  assign b hb s hs t ht hn v hv := by
    have hd : (⟨t.name, s.uses.map Var.name⟩ : Dependency) ∈
        f.blocks.toList.flatMap Block.dependencies := by
      refine List.mem_flatMap.mpr ⟨b, hb, List.mem_filterMap.mpr ⟨s, hs, ?_⟩⟩
      rw [ht]
      rfl
    exact closeNeeded_closed hd hn (List.mem_map_of_mem hv)

theorem neededNames_least {f : Function} {P : String → Prop} (h : f.NeedsClosed P)
    {x : String} (hx : x ∈ f.neededNames) : P x := by
  refine closeNeeded_least ?_ ?_ hx
  · intro y hy
    rw [Std.TreeSet.mem_ofList, List.contains_iff_mem] at hy
    obtain ⟨b, hb, hy⟩ := List.mem_flatMap.mp hy
    rcases List.mem_append.mp hy with hy | hy
    · obtain ⟨s, hs, hy⟩ := List.mem_flatMap.mp hy
      obtain ⟨hs, he⟩ := List.mem_filter.mp hs
      obtain ⟨v, hv, rfl⟩ := List.mem_map.mp hy
      exact h.effect b hb s hs he v hv
    · obtain ⟨v, hv, rfl⟩ := List.mem_map.mp hy
      exact h.term b hb v hv
  · intro d hd ht y hy
    obtain ⟨b, hb, hd⟩ := List.mem_flatMap.mp hd
    obtain ⟨s, hs, hd⟩ := List.mem_filterMap.mp hd
    obtain ⟨t, hst, rfl⟩ := Option.map_eq_some_iff.mp hd
    obtain ⟨v, hv, rfl⟩ := List.mem_map.mp hy
    exact h.assign b hb s hs t hst ht v hv

/-! ### Dropping statements -/

def keeping (f : Function) (p : Stmt → Bool) : Function :=
  { f with blocks := f.blocks.map fun b => { b with body := b.body.filter p } }

theorem withoutDead_eq_keeping (f : Function) :
    f.withoutDead = f.keeping (Stmt.isKept f.neededNames) := rfl

theorem mem_blocks_keeping {f : Function} {p : Stmt → Bool} {b : Block} :
    b ∈ (f.keeping p).blocks.toList ↔
      ∃ b' ∈ f.blocks.toList, b = { b' with body := b'.body.filter p } := by
  simp only [keeping, Array.toList_map, List.mem_map, eq_comm]

theorem isKept_iff {needed : Std.TreeSet String} {s : Stmt} :
    s.isKept needed = true ↔
      s.hasEffect = true ∨ ∃ t, s.target? = some t ∧ t.name ∈ needed := by
  cases h : s.target? <;> simp [Stmt.isKept, h]

/-- A test that passes all statements that stay leaves the needed names alone. -/
theorem mem_neededNames_keeping {f : Function} {p : Stmt → Bool}
    (hp : ∀ b ∈ f.blocks.toList, ∀ s ∈ b.body, s.isKept f.neededNames → p s) {x : String} :
    x ∈ (f.keeping p).neededNames ↔ x ∈ f.neededNames := by
  have hf := f.neededNames_closed
  have hk := (f.keeping p).neededNames_closed
  constructor
  · intro hx
    refine neededNames_least ⟨?_, ?_, ?_⟩ hx
    · intro b hb s hs
      obtain ⟨b', hb', rfl⟩ := mem_blocks_keeping.mp hb
      exact hf.effect b' hb' s (List.mem_filter.mp hs).1
    · intro b hb
      obtain ⟨b', hb', rfl⟩ := mem_blocks_keeping.mp hb
      exact hf.term b' hb'
    · intro b hb s hs
      obtain ⟨b', hb', rfl⟩ := mem_blocks_keeping.mp hb
      exact hf.assign b' hb' s (List.mem_filter.mp hs).1
  · -- The least set below is taken inside the needed names of both functions, so
    -- that a definition of one of its names is known to have stayed.
    intro hx
    refine (neededNames_least
      (P := fun y => y ∈ f.neededNames ∧ y ∈ (f.keeping p).neededNames) ⟨?_, ?_, ?_⟩ hx).2
    · intro b hb s hs he v hv
      have hps : p s := hp b hb s hs (isKept_iff.mpr (Or.inl he))
      exact ⟨hf.effect b hb s hs he v hv,
        hk.effect _ (mem_blocks_keeping.mpr ⟨b, hb, rfl⟩) s (List.mem_filter.mpr ⟨hs, hps⟩)
          he v hv⟩
    · intro b hb v hv
      exact ⟨hf.term b hb v hv, hk.term _ (mem_blocks_keeping.mpr ⟨b, hb, rfl⟩) v hv⟩
    · intro b hb s hs t ht hn v hv
      have hps : p s := hp b hb s hs (isKept_iff.mpr (Or.inr ⟨t, ht, hn.1⟩))
      exact ⟨hf.assign b hb s hs t ht hn.1 v hv,
        hk.assign _ (mem_blocks_keeping.mpr ⟨b, hb, rfl⟩) s (List.mem_filter.mpr ⟨hs, hps⟩)
          t ht hn.2 v hv⟩

theorem isKept_congr {needed needed' : Std.TreeSet String}
    (h : ∀ x, x ∈ needed ↔ x ∈ needed') (s : Stmt) :
    s.isKept needed = s.isKept needed' := by
  rw [Bool.eq_iff_iff, isKept_iff, isKept_iff]
  simp only [h]

theorem withoutDead_keeping {f : Function} {p : Stmt → Bool}
    (hp : ∀ b ∈ f.blocks.toList, ∀ s ∈ b.body, s.isKept f.neededNames → p s) :
    (f.keeping p).withoutDead = f.withoutDead := by
  have hkeep := isKept_congr (fun x => mem_neededNames_keeping hp (x := x))
  rw [withoutDead_eq_keeping, withoutDead_eq_keeping]
  simp only [keeping, Array.map_map]
  congr 1
  apply Array.map_congr_left
  intro b hb
  simp only [Function.comp_apply, List.filter_filter]
  congr 1
  apply List.filter_congr
  intro s hs
  have hps := hp b hb.val s hs
  change (s.isKept (f.keeping p).neededNames && p s) = _
  rw [hkeep s]
  cases hk : s.isKept f.neededNames
  · rfl
  · rw [hps hk]
    rfl

/-- Removal of dead statements reaches its end in one go. -/
theorem withoutDead_withoutDead (f : Function) : f.withoutDead.withoutDead = f.withoutDead :=
  withoutDead_keeping fun _ _ _ _ h => h

end Function

end SpmdArrays
