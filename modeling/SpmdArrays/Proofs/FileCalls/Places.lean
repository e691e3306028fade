import SpmdArrays.Proofs.FileCalls.Sites

/-!
The statements of a block at their places, in functions of any form. Nothing is asked of
the names here, so a name may be assigned anywhere and any number of times; still each
statement is looked at once, in a state that knows what is known at the place, and
whatever is kept by looking at statements holds in this state.
-/

namespace SpmdArrays

namespace Expand

/-- The statements of a block behind those in front, each with what stands for it and
looked at where the invariant holds. -/
inductive ExpandsAt (f : Function) (catalog : Option Inspector) (l : Label) (I : Expansion → Prop) :
    List Stmt → List Stmt → List (List Stmt) → Prop
  | nil (front : List Stmt) : ExpandsAt f catalog l I front [] []
  | cons {front rest out : List Stmt} {outs : List (List Stmt)} {s : Stmt} {st st' : Expansion}
      (hfacts : f.factsAt catalog l front = st.facts) (hst : I st)
      (hs : stmt (f.fileScope catalog) s st = .ok (out, st'))
      (hrest : ExpandsAt f catalog l I (front ++ [s]) rest outs) :
      ExpandsAt f catalog l I front (s :: rest) (out :: outs)

variable {f g : Function} {catalog : Option Inspector} {l : Label} {b : Block}
  {I : Expansion → Prop}

theorem ExpandsAt.exists_at {front ss rest : List Stmt} {outs : List (List Stmt)} {s : Stmt}
    (h : ExpandsAt f catalog l I front (ss ++ s :: rest) outs) :
    ∃ before out after st st', outs = before ++ out :: after ∧
      f.factsAt catalog l (front ++ ss) = st.facts ∧ I st ∧
      stmt (f.fileScope catalog) s st = .ok (out, st') := by
  induction ss generalizing front outs with
  | nil =>
      cases h with
      | cons hfacts hst hs hrest =>
          exact ⟨[], _, _, _, _, rfl, (List.append_nil front).symm ▸ hfacts, hst, hs⟩
  | cons u ss ih =>
      cases h with
      | @cons _ _ o _ _ _ _ hfacts hst hu hrest =>
          obtain ⟨before, out, after, st, st', rfl, hfacts', hst', hs⟩ := ih hrest
          rw [List.append_assoc] at hfacts'
          exact ⟨o :: before, out, after, st, st', rfl, hfacts', hst', hs⟩

theorem Visits.keeps {c : FileScope} {st st' : Expansion} {vs : List Visit}
    (h : Visits c st vs st')
    (hnote : ∀ st body, I st → I { st with facts := st.facts.noteCopies body })
    (hstep : ∀ v ∈ vs, ∀ s ∈ v.block.body, ∀ st₁ out st₂, Expands c st₁ s out st₂ → I st₁ → I st₂)
    (hst : I st) : I st' := by
  induction h with
  | nil st => exact hst
  | @cons st st₁ st₂ v vs hv _ ih =>
      refine ih (fun w hw => hstep w (List.mem_cons_of_mem _ hw)) ?_
      refine (hv.invariant (fun st₁ s out st₂ hs _ hexp => ?_) (hnote st _ hst)).1
      exact hstep v (List.mem_cons_self ..) s hs st₁ out st₂ hexp

theorem expandsAt_of_stmts {bs₁ : Array Block} {st₁ st st₂ : Expansion}
    {front done rest : List Stmt} {outs : List Stmt}
    (hreached : blocks (f.fileScope catalog) f.blocks (f.order.takeWhile (· ≠ l))
      { nextTemp := f.nextTemp } = .ok (bs₁, st₁)) (hb : f.block? l = some b)
    (hfront : stmts (f.fileScope catalog) front
      { st₁ with facts := st₁.facts.noteCopies b.body } = .ok (done, st))
    (hrest : stmts (f.fileScope catalog) rest st = .ok (outs, st₂))
    (hstep : ∀ s ∈ rest, ∀ st₁ out st₂, Expands (f.fileScope catalog) st₁ s out st₂ → I st₁ → I st₂)
    (hst : I st) :
    ∃ rows, ExpandsAt f catalog l I front rest rows ∧ outs = rows.flatten := by
  induction rest generalizing front done outs st with
  | nil =>
      cases hrest
      exact ⟨[], .nil front, rfl⟩
  | cons s rest ih =>
      obtain ⟨out, st', outs, hs, hss, rfl⟩ := stmts_cons_ok hrest
      have hone : stmts (f.fileScope catalog) [s] st = .ok (out, st') := by
        rw [stmts_cons_apply, hs]
        exact congrArg (fun o => Except.ok (o, st')) (List.append_nil out)
      have hst' : I st' := hstep s (List.mem_cons_self ..) st out st' (expands_of_stmt hs) hst
      obtain ⟨rows, hrows, rfl⟩ := ih (stmts_append hfront hone) hss
        (fun u hu => hstep u (List.mem_cons_of_mem _ hu)) hst'
      exact ⟨out :: rows, .cons (factsAt_of_reached hreached hb hfront) hst hs hrows, rfl⟩

end Expand

namespace Function

open Expand

variable {f g : Function} {catalog : Option Inspector} {l : Label} {b : Block}
  {I : Expansion → Prop}

/-- Every block is gone through place by place, and what is left of it is what stands for
its statements, without what became dead. -/
theorem exists_expandsAt (h : f.expandFiles catalog = .ok g)
    (hstart : I { nextTemp := f.nextTemp })
    (hnote : ∀ st body, I st → I { st with facts := st.facts.noteCopies body })
    (hstep : ∀ s ∈ f.stmts, ∀ st out st',
      Expands (f.fileScope catalog) st s out st' → I st → I st') :
    ∃ e : Function, g = e.withoutDead ∧ e = { f with blocks := e.blocks, nextTemp := e.nextTemp } ∧
      e.blocks.size = f.blocks.size ∧
      ∀ l b, f.block? l = some b → ∃ rows, ExpandsAt f catalog l I [] b.body rows ∧
        e.block? l = some { b with body := rows.flatten } := by
  obtain ⟨bs, final, hbs, rfl⟩ := expandFiles_ok h
  refine ⟨{ f with blocks := bs, nextTemp := final.nextTemp }, rfl, rfl, blocks_size hbs, ?_⟩
  intro l b hb
  obtain ⟨before, after, bs₁, st₁, st₂, out, horder, h₁, hbody, h₃⟩ := exists_split hbs hb
  have hnodup := f.order_nodup
  rw [horder] at hnodup
  obtain ⟨vs, hvisits, -, hblocks⟩ := visits_of_blocks h₁ (List.nodup_append'.mp hnodup).1
  have hst₁ : I st₁ := hvisits.keeps hnote
    (fun v hv s hs => hstep s (mem_stmts (hblocks v hv).1 hs)) hstart
  have hreached := h₁
  rw [← takeWhile_order horder] at hreached
  have hnone : Expand.stmts (f.fileScope catalog) []
      { st₁ with facts := st₁.facts.noteCopies b.body } =
        .ok ([], { st₁ with facts := st₁.facts.noteCopies b.body }) := rfl
  obtain ⟨rows, hrows, rfl⟩ := expandsAt_of_stmts hreached hb hnone hbody
    (fun s hs => hstep s (mem_stmts hb hs)) (hnote st₁ b.body hst₁)
  exact ⟨rows, hrows, getElem?_of_split horder hb h₁ h₃⟩

end Function

end SpmdArrays
