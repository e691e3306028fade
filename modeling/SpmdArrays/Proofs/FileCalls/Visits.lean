import SpmdArrays.Proofs.FileCalls.Recognition
import SpmdArrays.Proofs.Program.VisitingOrder

/-!
The pass over a whole function as a list of visits. Each block is visited once,
in the order of the function, in the state that the visits before it left; what
stands for it is put together from what stands for each of its statements.
-/

namespace SpmdArrays

theorem exists_of_flatten_eq {α : Type} {rows : List (List α)} {l r : List α} {x : α}
    (h : rows.flatten = l ++ x :: r) :
    ∃ before front back, front ++ x :: back ∈ rows ∧ l = before ++ front := by
  induction rows generalizing l with
  | nil => simp at h
  | cons out rows ih =>
      rw [List.flatten_cons] at h
      rcases List.append_eq_append_iff.mp h with ⟨c, rfl, hc⟩ | ⟨c, rfl, hc⟩
      · obtain ⟨before, front, back, hmem, rfl⟩ := ih hc
        exact ⟨out ++ before, front, back, List.mem_cons_of_mem _ hmem, (List.append_assoc ..).symm⟩
      · cases c with
        | nil =>
            obtain ⟨before, front, back, hmem, hnil⟩ := ih (l := []) hc.symm
            refine ⟨l ++ before, front, back, List.mem_cons_of_mem _ hmem, ?_⟩
            rw [List.append_assoc, ← hnil, List.append_nil]
        | cons y c =>
            cases hc
            exact ⟨[], l, c, List.mem_cons_self .., rfl⟩

namespace Expand

/-- A block that was looked at, with what stands for each of its statements. -/
structure Visit where
  label : Label
  block : Block
  outs : List (List Stmt)

def Visit.result (v : Visit) : Block := { v.block with body := v.outs.flatten }

inductive Visits (c : FileScope) : Expansion → List Visit → Expansion → Prop
  | nil (st : Expansion) : Visits c st [] st
  | cons {st st₁ st₂ : Expansion} {v : Visit} {vs : List Visit}
      (hv : ExpandsRow c { st with facts := st.facts.noteCopies v.block.body } v.block.body
        v.outs st₁)
      (hvs : Visits c st₁ vs st₂) : Visits c st (v :: vs) st₂

variable {c : FileScope} {st st' : Expansion}

theorem blocks_size {bs bs' : Array Block} {ls : List Label}
    (h : blocks c bs ls st = .ok (bs', st')) : bs'.size = bs.size := by
  induction ls generalizing bs st with
  | nil =>
      cases h
      rfl
  | cons l ls ih =>
      rw [blocks] at h
      cases hb : bs[l]? with
      | none =>
          rw [hb] at h
          exact ih h
      | some b =>
          rw [hb] at h
          obtain ⟨b', s₁, -, h₁⟩ := bind_eq_ok h
          rw [ih h₁, Array.size_setIfInBounds]

/-- The blocks that are there are visited in the order of the list. -/
theorem visits_of_blocks {bs bs' : Array Block} {ls : List Label}
    (h : blocks c bs ls st = .ok (bs', st')) (hnodup : ls.Nodup) :
    ∃ vs, Visits c st vs st' ∧ vs.map Visit.label = ls.filter (· < bs.size) ∧
      ∀ v ∈ vs, bs[v.label]? = some v.block ∧ bs'[v.label]? = some v.result := by
  induction ls generalizing bs st with
  | nil =>
      cases h
      exact ⟨[], .nil _, rfl, nofun⟩
  | cons l ls ih =>
      obtain ⟨hl, hnodup⟩ := List.nodup_cons.mp hnodup
      rw [blocks] at h
      cases hb : bs[l]? with
      | none =>
          rw [hb] at h
          obtain ⟨vs, hpass, hlabels, hvisits⟩ := ih h hnodup
          have hsize : ¬ l < bs.size := by
            simpa using Array.getElem?_eq_none_iff.mp hb
          refine ⟨vs, hpass, ?_, hvisits⟩
          rw [hlabels, List.filter_cons_of_neg (by simpa using hsize)]
      | some b =>
          rw [hb] at h
          obtain ⟨b', s₁, hblock, h₁⟩ := bind_eq_ok h
          obtain ⟨out, hout, rfl⟩ := block_ok hblock
          obtain ⟨outs, hrow, rfl⟩ := row_of_stmts hout
          obtain ⟨vs, hpass, hlabels, hvisits⟩ := ih h₁ hnodup
          rw [Array.size_setIfInBounds] at hlabels
          have hlt : l < bs.size := (Array.getElem?_eq_some_iff.mp hb).1
          refine ⟨⟨l, b, outs⟩ :: vs, .cons (expandsRow_of_row hrow) hpass, ?_, ?_⟩
          · rw [List.map_cons, hlabels, List.filter_cons_of_pos (by simpa using hlt)]
          · intro v hv
            rcases List.mem_cons.mp hv with rfl | hv
            · refine ⟨hb, ?_⟩
              rw [blocks_getElem?_of_not_mem h₁ hl, Array.getElem?_setIfInBounds_self_of_lt hlt]
              rfl
            · have hmem : v.label ∈ ls := by
                have := List.mem_map_of_mem (f := Visit.label) hv
                rw [hlabels] at this
                exact (List.mem_filter.mp this).1
              have hne : l ≠ v.label := fun heq => hl (heq ▸ hmem)
              obtain ⟨hold, hnew⟩ := hvisits v hv
              rw [Array.getElem?_setIfInBounds_ne hne] at hold
              exact ⟨hold, hnew⟩

theorem ExpandsRow.exists_out {ss : List Stmt} {outs : List (List Stmt)}
    (h : ExpandsRow c st ss outs st') {s : Stmt} (hs : s ∈ ss) :
    ∃ out ∈ outs, ∃ st₁ st₂, Expands c st₁ s out st₂ := by
  induction h with
  | nil st => cases hs
  | cons hfirst _ ih =>
      rcases List.mem_cons.mp hs with rfl | hs
      · exact ⟨_, List.mem_cons_self .., _, _, hfirst⟩
      · obtain ⟨out, hout, hexp⟩ := ih hs
        exact ⟨out, List.mem_cons_of_mem _ hout, hexp⟩

theorem Visits.exists_out {vs : List Visit} (h : Visits c st vs st') {v : Visit} (hv : v ∈ vs)
    {s : Stmt} (hs : s ∈ v.block.body) : ∃ out ∈ v.outs, ∃ st₁ st₂, Expands c st₁ s out st₂ := by
  induction h with
  | nil st => cases hv
  | cons hrow _ ih =>
      rcases List.mem_cons.mp hv with rfl | hv
      · exact hrow.exists_out hs
      · exact ih hv

theorem ExpandsRow.exists_place {ss : List Stmt} {outs : List (List Stmt)}
    (h : ExpandsRow c st ss outs st') {out : List Stmt} (hout : out ∈ outs) :
    ∃ front s rest outs₁ outs₂ st₁ st₂, ss = front ++ s :: rest ∧ outs = outs₁ ++ out :: outs₂ ∧
      ExpandsRow c st front outs₁ st₁ ∧ Expands c st₁ s out st₂ ∧
      ExpandsRow c st₂ rest outs₂ st' := by
  induction h with
  | nil st => cases hout
  | @cons st st₁ st₂ s ss o outs hs hss ih =>
      rcases List.mem_cons.mp hout with rfl | hout
      · exact ⟨[], s, ss, [], outs, st, st₁, rfl, rfl, .nil st, hs, hss⟩
      · obtain ⟨front, s', rest, outs₁, outs₂, st₃, st₄, rfl, rfl, hfront, hs', hrest⟩ := ih hout
        exact ⟨s :: front, s', rest, o :: outs₁, outs₂, st₃, st₄, rfl, rfl, .cons hs hfront, hs',
          hrest⟩

/-- What holds at the start, and is kept by noting copies and by each visited
statement, holds wherever a statement is looked at. -/
theorem ExpandsRow.invariant {I : Expansion → Prop} {ss : List Stmt} {outs : List (List Stmt)}
    (h : ExpandsRow c st ss outs st')
    (hstep : ∀ st₁ s out st₂, s ∈ ss → out ∈ outs → Expands c st₁ s out st₂ → I st₁ → I st₂)
    (hst : I st) :
    I st' ∧ ∀ out ∈ outs, ∃ s ∈ ss, ∃ st₁ st₂, Expands c st₁ s out st₂ ∧ I st₁ := by
  induction h with
  | nil st => exact ⟨hst, nofun⟩
  | @cons st st₁ st₂ s ss out outs hs hss ih =>
      have hst₁ : I st₁ :=
        hstep _ _ _ _ (List.mem_cons_self ..) (List.mem_cons_self ..) hs hst
      obtain ⟨hend, hrest⟩ := ih (fun st₁ s out st₂ hs hout =>
        hstep st₁ s out st₂ (List.mem_cons_of_mem _ hs) (List.mem_cons_of_mem _ hout)) hst₁
      refine ⟨hend, fun o ho => ?_⟩
      rcases List.mem_cons.mp ho with rfl | ho
      · exact ⟨s, List.mem_cons_self .., st, st₁, hs, hst⟩
      · obtain ⟨s', hs', hexp⟩ := hrest o ho
        exact ⟨s', List.mem_cons_of_mem _ hs', hexp⟩

theorem Visits.invariant {I : Expansion → Prop} {vs : List Visit} (h : Visits c st vs st')
    (hnote : ∀ st, ∀ v ∈ vs, I st → I { st with facts := st.facts.noteCopies v.block.body })
    (hstep : ∀ v ∈ vs, ∀ st₁ s out st₂, s ∈ v.block.body → out ∈ v.outs →
      Expands c st₁ s out st₂ → I st₁ → I st₂) (hst : I st) :
    ∀ v ∈ vs, ∀ out ∈ v.outs, ∃ s ∈ v.block.body, ∃ st₁ st₂, Expands c st₁ s out st₂ ∧ I st₁ := by
  induction h with
  | nil st => exact nofun
  | cons hv hvs ih =>
      obtain ⟨hend, hrow⟩ := hv.invariant (hstep _ (List.mem_cons_self ..))
        (hnote _ _ (List.mem_cons_self ..) hst)
      intro w hw
      rcases List.mem_cons.mp hw with rfl | hw
      · exact hrow
      · exact ih (fun st v hv => hnote st v (List.mem_cons_of_mem _ hv))
          (fun v hv => hstep v (List.mem_cons_of_mem _ hv)) hend w hw

end Expand

namespace Function

open Expand

/-- The function `e` is what the visits made of `f`, dead statements included. -/
structure Expanded (f : Function) (catalog : Option Inspector) (vs : List Visit)
    (st : Expansion) (e : Function) : Prop where
  visits : Visits (f.fileScope catalog) { nextTemp := f.nextTemp } vs st
  frame : e = { f with blocks := e.blocks, nextTemp := st.nextTemp }
  size : e.blocks.size = f.blocks.size
  order : vs.map Visit.label = f.order.filter (· < f.blocks.size)
  visited : ∀ v ∈ vs, f.block? v.label = some v.block ∧ e.block? v.label = some v.result

theorem exists_expanded {f g : Function} {catalog : Option Inspector}
    (h : f.expandFiles catalog = .ok g) :
    ∃ vs st e, f.Expanded catalog vs st e ∧ g = e.withoutDead := by
  obtain ⟨bs, st, hbs, rfl⟩ := expandFiles_ok h
  obtain ⟨vs, hpass, horder, hvisited⟩ := visits_of_blocks hbs f.order_nodup
  exact ⟨vs, st, { f with blocks := bs, nextTemp := st.nextTemp },
    ⟨hpass, rfl, blocks_size hbs, horder, hvisited⟩, rfl⟩

namespace Expanded

variable {f e : Function} {catalog : Option Inspector} {vs : List Visit} {st : Expansion}

theorem nodup_labels (h : f.Expanded catalog vs st e) : (vs.map Visit.label).Nodup := by
  rw [h.order]
  exact f.order_nodup.filter _

theorem exists_visit (h : f.Expanded catalog vs st e) {l : Label} {b : Block}
    (hb : e.block? l = some b) : ∃ v ∈ vs, v.label = l ∧ v.result = b := by
  have hlt : l < f.blocks.size := by
    rw [← h.size]
    exact (Array.getElem?_eq_some_iff.mp hb).1
  have hmem : l ∈ vs.map Visit.label := by
    rw [h.order]
    exact List.mem_filter.mpr ⟨mem_order_of_lt hlt, by simpa using hlt⟩
  obtain ⟨v, hv, rfl⟩ := List.mem_map.mp hmem
  refine ⟨v, hv, rfl, ?_⟩
  rw [(h.visited v hv).2] at hb
  exact Option.some.inj hb

theorem exists_visit_block (h : f.Expanded catalog vs st e) {l : Label} {b : Block}
    (hb : f.block? l = some b) : ∃ v ∈ vs, v.label = l ∧ v.block = b := by
  have hlt : l < e.blocks.size := by
    rw [h.size]
    exact (Array.getElem?_eq_some_iff.mp hb).1
  obtain ⟨v, hv, rfl, -⟩ := h.exists_visit (Array.getElem?_eq_getElem hlt)
  refine ⟨v, hv, rfl, ?_⟩
  rw [(h.visited v hv).1] at hb
  exact Option.some.inj hb

end Expanded

end Function

end SpmdArrays
