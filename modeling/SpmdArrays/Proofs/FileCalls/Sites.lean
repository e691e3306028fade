import SpmdArrays.Proofs.FileCalls.Senses

/-!
The places of a function, each with what is known when it is looked at. Blocks are
visited once and in an order in which dominating blocks come first, so at each place the
assignments of the names that are given there have been seen, and none of them is seen
again. What is known about such a name is therefore what is known about it in the end,
whichever way a run comes to the place.
-/

namespace SpmdArrays

namespace Expand

variable {c : FileScope} {st st' : Expansion}

theorem blocks_append_ok {bs bs' : Array Block} {xs ys : List Label}
    (h : blocks c bs (xs ++ ys) st = .ok (bs', st')) :
    ∃ bs₁ st₁, blocks c bs xs st = .ok (bs₁, st₁) ∧ blocks c bs₁ ys st₁ = .ok (bs', st') := by
  induction xs generalizing bs st with
  | nil => exact ⟨bs, st, rfl, h⟩
  | cons x xs ih =>
      rw [List.cons_append, blocks] at h
      cases hb : bs[x]? with
      | none =>
          rw [hb] at h
          obtain ⟨bs₁, st₁, h₁, h₂⟩ := ih h
          refine ⟨bs₁, st₁, ?_, h₂⟩
          rw [blocks, hb]
          exact h₁
      | some b =>
          rw [hb] at h
          obtain ⟨b', s₁, hblock, h₁⟩ := bind_eq_ok h
          obtain ⟨bs₁, st₁, h₂, h₃⟩ := ih h₁
          refine ⟨bs₁, st₁, ?_, h₃⟩
          rw [blocks, hb]
          simp only [bind_apply, hblock]
          exact h₂

variable {f : Function} {catalog : Option Inspector} {final : Expansion} {bs : Array Block}
  {l : Label} {b : Block}

theorem exists_split
    (h : blocks (f.fileScope catalog) f.blocks f.order { nextTemp := f.nextTemp } = .ok (bs, final))
    (hb : f.block? l = some b) :
    ∃ before after bs₁ st₁ st₂ out, f.order = before ++ l :: after ∧
      blocks (f.fileScope catalog) f.blocks before { nextTemp := f.nextTemp } = .ok (bs₁, st₁) ∧
      stmts (f.fileScope catalog) b.body { st₁ with facts := st₁.facts.noteCopies b.body } =
        .ok (out, st₂) ∧
      blocks (f.fileScope catalog) (bs₁.setIfInBounds l { b with body := out }) after st₂ =
        .ok (bs, final) := by
  have hlt : l < f.blocks.size := (Array.getElem?_eq_some_iff.mp hb).1
  obtain ⟨before, after, horder⟩ := List.append_of_mem (Function.mem_order_of_lt hlt)
  have hnodup := f.order_nodup
  rw [horder] at hnodup h
  have hnot : l ∉ before := fun hmem =>
    (List.nodup_append'.mp hnodup).2.2 hmem (List.mem_cons_self ..)
  obtain ⟨bs₁, st₁, h₁, h₂⟩ := blocks_append_ok h
  have hb₁ : bs₁[l]? = some b := (blocks_getElem?_of_not_mem h₁ hnot).trans hb
  rw [Expand.blocks, hb₁] at h₂
  obtain ⟨b', st₂, hblock, h₃⟩ := bind_eq_ok h₂
  obtain ⟨out, hbody, rfl⟩ := block_ok hblock
  exact ⟨before, after, bs₁, st₁, st₂, out, horder, h₁, hbody, h₃⟩

theorem getElem?_of_split {before after : List Label} {bs₁ : Array Block} {st₁ st₂ : Expansion}
    {b' : Block} (horder : f.order = before ++ l :: after) (hb : f.block? l = some b)
    (h₁ : blocks (f.fileScope catalog) f.blocks before { nextTemp := f.nextTemp } = .ok (bs₁, st₁))
    (h₂ : blocks (f.fileScope catalog) (bs₁.setIfInBounds l b') after st₂ = .ok (bs, final)) :
    bs[l]? = some b' := by
  have hnodup := f.order_nodup
  rw [horder] at hnodup
  have hl : l ∉ after := (List.nodup_cons.mp (List.nodup_append'.mp hnodup).2.1).1
  have hlt : l < bs₁.size := by
    rw [blocks_size h₁]
    exact (Array.getElem?_eq_some_iff.mp hb).1
  rw [blocks_getElem?_of_not_mem h₂ hl]
  exact Array.getElem?_setIfInBounds_self_of_lt hlt

theorem takeWhile_order {before after : List Label} (horder : f.order = before ++ l :: after) :
    f.order.takeWhile (· ≠ l) = before := by
  have hnodup := f.order_nodup
  rw [horder] at hnodup ⊢
  have hnot : l ∉ before := fun hmem =>
    (List.nodup_append'.mp hnodup).2.2 hmem (List.mem_cons_self ..)
  rw [List.takeWhile_append_of_pos, List.takeWhile_cons_of_neg (by simp), List.append_nil]
  intro k hk
  exact decide_eq_true fun heq => hnot (heq ▸ hk)

/-- What is known at a place is what the pass knows there. -/
theorem factsAt_of_reached {front done : List Stmt} {bs₁ : Array Block} {st₁ st : Expansion}
    (hreached : blocks (f.fileScope catalog) f.blocks (f.order.takeWhile (· ≠ l))
      { nextTemp := f.nextTemp } = .ok (bs₁, st₁)) (hb : f.block? l = some b)
    (hfront : stmts (f.fileScope catalog) front
      { st₁ with facts := st₁.facts.noteCopies b.body } = .ok (done, st)) :
    f.factsAt catalog l front = st.facts := by
  unfold Function.factsAt Function.factsIn
  simp only [bind_apply, hreached, hb, modifyFacts_apply, Option.getD_some, hfront]
  rfl

/-- The pass comes to the block `l` in the state `st₁`, leaves it in the state `st₂`, and
ends with `final`. -/
structure Passage (f : Function) (catalog : Option Inspector) (final : Expansion) (l : Label)
    (b : Block) (pre post : List Visit) (st₁ st₂ : Expansion) (out : List Stmt) : Prop where
  reached : ∃ bs, blocks (f.fileScope catalog) f.blocks (f.order.takeWhile (· ≠ l))
    { nextTemp := f.nextTemp } = .ok (bs, st₁)
  block : f.block? l = some b
  arrival : Visits (f.fileScope catalog) { nextTemp := f.nextTemp } pre st₁
  body : stmts (f.fileScope catalog) b.body { st₁ with facts := st₁.facts.noteCopies b.body } =
    .ok (out, st₂)
  departure : Visits (f.fileScope catalog) st₂ post final
  blocks : ∀ v ∈ pre, f.block? v.label = some v.block
  names : (visitedNames pre ++ (definedNames b.body ++ visitedNames post)).Perm
    (definedNames f.stmts)
  /-- Dominating blocks come first. -/
  dominators : ∀ a b', f.StrictlyDominates a l → f.block? a = some b' → ∃ v ∈ pre, v.block = b'

theorem exists_passage (hf : f.Ssa)
    (h : blocks (f.fileScope catalog) f.blocks f.order { nextTemp := f.nextTemp } = .ok (bs, final))
    (hb : f.block? l = some b) :
    ∃ pre post st₁ st₂ out, Passage f catalog final l b pre post st₁ st₂ out ∧
      bs[l]? = some { b with body := out } := by
  have hlt : l < f.blocks.size := (Array.getElem?_eq_some_iff.mp hb).1
  obtain ⟨before, after, bs₁, st₁, st₂, out, horder, h₁, hbody, h₃⟩ := exists_split h hb
  have hnodup := f.order_nodup
  rw [horder] at hnodup
  obtain ⟨hbefore, hrest, hdisjoint⟩ := List.nodup_append'.mp hnodup
  obtain ⟨hl, hafter⟩ := List.nodup_cons.mp hrest
  obtain ⟨pre, hpre, hprelabels, hpreblocks⟩ := visits_of_blocks h₁ hbefore
  obtain ⟨post, hpost, hpostlabels, hpostblocks⟩ := visits_of_blocks h₃ hafter
  have hsize : bs₁.size = f.blocks.size := blocks_size h₁
  rw [Array.size_setIfInBounds, hsize] at hpostlabels
  have hpost' : ∀ v ∈ post, f.block? v.label = some v.block := by
    intro v hv
    have hmem : v.label ∈ after := by
      have hlabel := List.mem_map_of_mem (f := Visit.label) hv
      rw [hpostlabels] at hlabel
      exact (List.mem_filter.mp hlabel).1
    have hne : l ≠ v.label := fun heq => hl (heq ▸ hmem)
    have hold := (hpostblocks v hv).1
    rw [Array.getElem?_setIfInBounds_ne hne] at hold
    refine (blocks_getElem?_of_not_mem h₁ fun hmem' => ?_).symm.trans hold
    exact hdisjoint hmem' (List.mem_cons_of_mem _ hmem)
  have hlabels : pre.map Visit.label ++ l :: post.map Visit.label =
      f.order.filter (· < f.blocks.size) := by
    rw [horder, List.filter_append, List.filter_cons_of_pos (by simpa using hlt), hprelabels,
      hpostlabels]
  have hvisited : ∀ v ∈ pre ++ ⟨l, b, []⟩ :: post, f.block? v.label = some v.block := by
    intro v hv
    rcases List.mem_append.mp hv with hv | hv
    · exact (hpreblocks v hv).1
    · rcases List.mem_cons.mp hv with rfl | hv
      · exact hb
      · exact hpost' v hv
  refine ⟨pre, post, st₁, st₂, out, ⟨⟨bs₁, (takeWhile_order horder).symm ▸ h₁⟩, hb, hpre, hbody,
    hpost, fun v hv => (hpreblocks v hv).1, ?_, ?_⟩, getElem?_of_split horder hb h₁ h₃⟩
  · have hmap : (pre ++ ⟨l, b, []⟩ :: post).map Visit.label =
        f.order.filter (· < f.blocks.size) := by
      rw [List.map_append, List.map_cons, hlabels]
    have hperm := Function.perm_definedNames hmap hvisited
    rw [List.flatMap_append, List.flatMap_cons] at hperm
    exact hperm
  · intro a b' hdom hb'
    have halt : a < f.blocks.size := (Array.getElem?_eq_some_iff.mp hb').1
    have hsub := Function.sublist_order_of_strictlyDominates (hf.reachable l b hb) hdom
    have hsub' := hsub.filter (· < f.blocks.size)
    rw [← hlabels, List.filter_eq_self.mpr (by simp [halt, hlt])] at hsub'
    have hmem := mem_of_sublist_pair hsub' (hlabels ▸ f.order_nodup.filter _)
    obtain ⟨v, hv, rfl⟩ := List.mem_map.mp hmem
    refine ⟨v, hv, ?_⟩
    rw [show f.block? v.label = some v.block from (hpreblocks v hv).1] at hb'
    exact Option.some.inj hb'

/-! ### One place after the other -/

/-- A place of the function and the state in which it is looked at. -/
structure Site (f : Function) (final : Facts) (l : Label) (front : List Stmt) (st : Expansion) :
    Prop where
  le : f.nextTemp ≤ st.nextTemp
  unassigned : ∀ x, x ∉ definedNames f.stmts → (st.facts.about x).role = {}
  sense : ∀ x, ∃ s, Is (st.facts.about x) s ∧ Grounded f st x s
  /-- What is known about a name that is given is what is known in the end. -/
  final : ∀ x, f.Given l front x → (st.facts.about x).role = (final.about x).role

/-- The rest of a block, behind the statements in front, with what stands for it. -/
inductive Sited (f : Function) (catalog : Option Inspector) (final : Facts) (l : Label) :
    List Stmt → Expansion → List Stmt → List Stmt → Prop
  | nil {front : List Stmt} {st : Expansion} (h : Site f final l front st) :
      Sited f catalog final l front st [] []
  | cons {front rest out outs : List Stmt} {s : Stmt} {st st' : Expansion}
      (h : Site f final l front st) (hfacts : f.factsAt catalog l front = st.facts)
      (hblank : ∀ x, s.Assigns x → (st.facts.about x).role = {})
      (hexp : Expands (f.fileScope catalog) st s out st')
      (hrest : Sited f catalog final l (front ++ [s]) st' rest outs) :
      Sited f catalog final l front st (s :: rest) (out ++ outs)

/-- One statement at its place. -/
structure Turn (f : Function) (catalog : Option Inspector) (final : Facts) (l : Label)
    (front : List Stmt) (s : Stmt) (st : Expansion) (out : List Stmt) (st' : Expansion) : Prop where
  begins : f.Begins l (front ++ [s])
  facts : f.factsAt catalog l front = st.facts
  blank : ∀ x, s.Assigns x → (st.facts.about x).role = {}
  expands : Expands (f.fileScope catalog) st s out st'
  before : Site f final l front st
  after : Site f final l (front ++ [s]) st'

theorem Sited.site {facts : Facts} {l : Label} {front rest out : List Stmt}
    (h : Sited f catalog facts l front st rest out) : Site f facts l front st := by
  cases h with
  | nil h => exact h
  | cons h _ _ _ _ => exact h

theorem Sited.turn {facts : Facts} {l : Label} {front rest out : List Stmt} {s : Stmt} {b : Block}
    (h : Sited f catalog facts l front st (s :: rest) out) (hb : f.block? l = some b)
    (hbody : b.body = front ++ s :: rest) :
    ∃ out₁ st' out₂, out = out₁ ++ out₂ ∧ Turn f catalog facts l front s st out₁ st' ∧
      Sited f catalog facts l (front ++ [s]) st' rest out₂ := by
  cases h with
  | cons h hfacts hblank hexp hrest =>
      have hbegins : f.Begins l (front ++ [s]) :=
        ⟨b, hb, rest, (hbody.trans (List.append_cons ..)).symm⟩
      exact ⟨_, _, _, rfl, ⟨hbegins, hfacts, hblank, hexp, h, hrest.site⟩, hrest⟩

theorem Site.sense_of_given {facts : Facts} {l : Label} {front : List Stmt}
    (h : Site f facts l front st) {x : String} (hx : f.Given l front x) :
    ∃ s, Is (facts.about x) s ∧ Is (st.facts.about x) s ∧ Grounded f st x s := by
  obtain ⟨s, hs, hground⟩ := h.sense x
  exact ⟨s, (h.final x hx).symm.trans hs, hs, hground⟩

namespace Turn

variable {facts : Facts} {l : Label} {front out : List Stmt} {s : Stmt}
  (h : Turn f catalog facts l front s st out st')

include h

/-- The sense that an assignment gives to its name is the one that it has in the end. -/
theorem final_target {t : Var} (ht : s.target? = some t) :
    (facts.about t.name).role = (st'.facts.about t.name).role := by
  have hassigns : s.Assigns t.name := congrArg (Option.map Var.name) ht
  refine (h.after.final _ fun _ => Or.inl ?_).symm
  rw [definedNames_append]
  exact List.mem_append_right _ (mem_definedNames (List.mem_singleton_self s) hassigns)

theorem blank_target {t : Var} (ht : s.target? = some t) : (st.facts.about t.name).role = {} :=
  h.blank _ (congrArg (Option.map Var.name) ht)

theorem sense_of_uses (hf : f.Ssa) {v : Var} (hv : v ∈ s.uses) :
    ∃ sense, Is (facts.about v.name) sense ∧ Is (st.facts.about v.name) sense ∧
      Grounded f st v.name sense :=
  h.before.sense_of_given (hf.given_of_uses h.begins hv)

end Turn

namespace Passage

variable {l : Label} {b : Block} {pre post : List Visit} {st₁ st₂ : Expansion} {out : List Stmt}
  (h : Passage f catalog final l b pre post st₁ st₂ out)

include h

theorem factsAt_eq {front done : List Stmt} {st : Expansion}
    (hfront : stmts (f.fileScope catalog) front
      { st₁ with facts := st₁.facts.noteCopies b.body } = .ok (done, st)) :
    f.factsAt catalog l front = st.facts := by
  obtain ⟨bs, hbs⟩ := h.reached
  exact factsAt_of_reached hbs h.block hfront

theorem mem_of_available {front : List Stmt} {x : String} (hx : f.Available l front x) :
    x ∈ visitedNames pre ++ definedNames front := by
  rcases hx with hx | ⟨a, b', hdom, hb', hx⟩
  · exact List.mem_append_right _ hx
  · obtain ⟨v, hv, rfl⟩ := h.dominators a b' hdom hb'
    exact List.mem_append_left _ (List.mem_flatMap.mpr ⟨v, hv, hx⟩)

variable (hf : f.Ssa)

include hf

theorem nodup : (visitedNames pre ++ (definedNames b.body ++ visitedNames post)).Nodup := by
  rw [List.nodup_iff_count]
  intro x
  rw [h.names.count_eq]
  exact (hf.settled x).once

theorem not_mem_of_given {front rest : List Stmt} (hbody : b.body = front ++ rest) {x : String}
    (hx : f.Given l front x) : x ∉ definedNames rest ++ visitedNames post := by
  intro hmem
  have hnodup := h.nodup hf
  rw [hbody, definedNames_append, List.append_assoc, ← List.append_assoc] at hnodup
  have hall : x ∈ definedNames f.stmts := by
    rw [← h.names.mem_iff, hbody, definedNames_append, List.append_assoc]
    exact List.mem_append_right _ (List.mem_append_right _ hmem)
  exact (List.nodup_append'.mp hnodup).2.2 (h.mem_of_available (hx hall)) hmem

variable {front rest done outs : List Stmt} {st : Expansion} (hbody : b.body = front ++ rest)
  (hrest : stmts (f.fileScope catalog) rest st = .ok (outs, st₂))
  (hinf : Informed f (visitedNames pre ++ definedNames front) st)

include hbody hrest hinf

theorem site : Site f final.facts l front st where
  le := hinf.le
  unassigned x hx := by
    refine hinf.blank x fun hmem => hx (h.names.mem_iff.mp ?_)
    rw [hbody, definedNames_append, List.append_assoc, ← List.append_assoc]
    exact List.mem_append_left _ hmem
  sense := hinf.sense
  final x hx := by
    have hnot := h.not_mem_of_given hf hbody hx
    rw [List.mem_append, not_or] at hnot
    obtain ⟨outs', hrow, -⟩ := row_of_stmts hrest
    rw [h.departure.role_eq hnot.2, (expandsRow_of_row hrow).role_eq hnot.1]

variable (hnames : f.NamesApart)
  (hfront : stmts (f.fileScope catalog) front
    { st₁ with facts := st₁.facts.noteCopies b.body } = .ok (done, st))

include hnames hfront

theorem sited_rest : Sited f catalog final.facts l front st rest outs := by
  induction rest generalizing front done outs st with
  | nil =>
      cases hrest
      exact .nil (h.site hf hbody rfl hinf)
  | cons s rest ih =>
      have hsite := h.site hf hbody hrest hinf
      obtain ⟨out, st', outs, hs, hss, rfl⟩ := stmts_cons_ok hrest
      have hbody' : b.body = front ++ [s] ++ rest := by rw [hbody, List.append_cons]
      have hbegins : f.Begins l (front ++ [s]) := ⟨b, h.block, rest, hbody'.symm⟩
      have hfresh : ∀ x, s.Assigns x → x ∉ visitedNames pre ++ definedNames front := by
        intro x hsx hmem
        have hnodup := h.nodup hf
        rw [hbody, definedNames_append, List.append_assoc, ← List.append_assoc] at hnodup
        refine (List.nodup_append'.mp hnodup).2.2 hmem (List.mem_append_left _ ?_)
        exact mem_definedNames (List.mem_cons_self ..) hsx
      have hexp := expands_of_stmt hs
      refine .cons hsite (h.factsAt_eq hfront) (fun x hsx => hinf.blank x (hfresh x hsx)) hexp ?_
      have hstep := hinf.step hf hnames hbegins hexp hfresh
      rw [List.append_assoc, ← definedNames_append] at hstep
      have hone : stmts (f.fileScope catalog) [s] st = .ok (out, st') := by
        rw [stmts_cons_apply, hs]
        exact congrArg (fun o => Except.ok (o, st')) (List.append_nil out)
      exact ih hbody' hss hstep (stmts_append hfront hone)

end Passage

/-- Every block can be looked at place by place. -/
theorem exists_sited (hf : f.Ssa) (hnames : f.NamesApart)
    (h : blocks (f.fileScope catalog) f.blocks f.order { nextTemp := f.nextTemp } = .ok (bs, final))
    {l : Label} {b : Block} (hb : f.block? l = some b) :
    ∃ st out, Sited f catalog final.facts l [] st b.body out ∧
      bs[l]? = some { b with body := out } := by
  obtain ⟨pre, post, st₁, st₂, out, hpass, hout⟩ := exists_passage hf h hb
  have hnodup := (List.nodup_append'.mp (hpass.nodup hf)).1
  have hinf := ((informed_start f).visits hf hnames hpass.arrival hpass.blocks hnodup).noteCopies
    b.body
  refine ⟨_, out, hpass.sited_rest hf rfl hpass.body ?_ hnames rfl, hout⟩
  simpa using hinf

end Expand

end SpmdArrays
