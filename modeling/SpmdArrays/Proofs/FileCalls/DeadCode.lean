import SpmdArrays.Proofs.Exec.Requests
import SpmdArrays.Proofs.FileCalls.NeededNames
import SpmdArrays.Proofs.Program.Assignments

/-!
Removal of dead statements keeps what a function does. The run of the function
and the run of what is left go block by block side by side, on the same device
and with environments that agree on the needed names. A statement that stays
uses needed names only, so it does the same on both sides; a statement that goes
assigns a name that is not needed, so if it succeeds the environments still
agree. It may also fail, and then only the run of the whole function ends there.
-/

namespace SpmdArrays

variable {σ : Type} {needed : Std.TreeSet String}

namespace Exec

/-- The same device, and the same values under the needed names. -/
def AgreeOn (needed : Std.TreeSet String) (m n : Machine (σ × List Request)) : Prop :=
  m.device = n.device ∧ Env.Agree (· ∈ needed) m.env n.env

/-- What stays uses needed names only. -/
def KeepsUses (needed : Std.TreeSet String) (ss : List Stmt) : Prop :=
  ∀ s ∈ ss, s.isKept needed → ∀ v ∈ s.uses, v.name ∈ needed

theorem AgreeOn.requests_eq {m n : Machine (σ × List Request)} (h : AgreeOn needed m n) :
    m.requests = n.requests := by
  rw [Machine.requests, Machine.requests, h.1]

theorem AgreeOn.requests_le {m n : Machine (σ × List Request)} (h : AgreeOn needed m n) :
    m.requests <+: n.requests :=
  h.requests_eq ▸ List.prefix_refl _

/-- A statement that does not stay is an assignment to a name that is not
needed. -/
theorem eq_assign_of_not_isKept {s : Stmt} (h : ¬ s.isKept needed) :
    ∃ target value, s = .assign target value ∧ target.name ∉ needed := by
  cases s with
  | assign target value =>
      refine ⟨target, value, rfl, fun hn => h ?_⟩
      exact Function.isKept_iff.mpr (Or.inr ⟨target, rfl, hn⟩)
  | call target callee args kws => exact absurd rfl h
  | store target index value => exact absurd rfl h

theorem body_covers (d : Device σ) {ss : List Stmt} (hss : KeepsUses needed ss)
    {m n : Machine (σ × List Request)} (h : AgreeOn needed m n) :
    Covers Machine.requests Machine.requests (AgreeOn needed) (body d.recording ss m)
      (body d.recording (ss.filter (Stmt.isKept needed)) n) := by
  induction ss generalizing m n with
  | nil => exact ⟨rfl, h⟩
  | cons s ss ih =>
      have hrest : KeepsUses needed ss := fun t ht => hss t (List.mem_cons_of_mem _ ht)
      rw [body_cons_apply]
      by_cases hs : s.isKept needed
      · have hstep := stmt_alike d.recording (hss s (List.mem_cons_self ..) hs) h.1 h.2
        rw [List.filter_cons_of_pos hs, body_cons_apply]
        revert hstep
        cases stmt d.recording s m <;> cases stmt d.recording s n <;> intro hstep
        · exact ih hrest ⟨hstep.2.1, hstep.2.2⟩
        · exact hstep.elim
        · exact hstep.elim
        · -- both stop here, with the same requests made
          simp only [Covers, Machine.requests, final, hstep.2]
          exact List.prefix_refl _
      · obtain ⟨target, value, rfl, htarget⟩ := eq_assign_of_not_isKept hs
        rw [List.filter_cons_of_neg hs, stmt_assign_apply]
        cases value.eval m.env with
        | error e =>
            simp only [Covers, h.requests_eq]
            exact body_requests d _ n
        | ok v => exact ih hrest ⟨h.1, h.2.insert_left htarget v⟩

end Exec

namespace Function

theorem keepsUses_neededNames {f : Function} {b : Block} (hb : b ∈ f.blocks.toList) :
    Exec.KeepsUses f.neededNames b.body := by
  intro s hs hkept v hv
  have hclosed := f.neededNames_closed
  rcases isKept_iff.mp hkept with heffect | ⟨t, ht, hn⟩
  · exact hclosed.effect b hb s hs heffect v hv
  · exact hclosed.assign b hb s hs t ht hn v hv

theorem block?_withoutDead (f : Function) (l : Label) :
    f.withoutDead.block? l = (f.block? l).map (Block.withoutDead f.neededNames) := by
  simp only [block?, withoutDead, Array.getElem?_map]

theorem mem_stmts_of_withoutDead {e : Function} {u : Stmt} (hu : u ∈ e.withoutDead.stmts) :
    u ∈ e.stmts := by
  obtain ⟨b, hb, hub⟩ := List.mem_flatMap.mp hu
  rw [withoutDead_eq_keeping, mem_blocks_keeping] at hb
  obtain ⟨b', hb', rfl⟩ := hb
  exact List.mem_flatMap.mpr ⟨b', hb', (List.mem_filter.mp hub).1⟩

theorem exists_block_of_withoutDead {e : Function} {l : Label} {b : Block}
    (hb : e.withoutDead.block? l = some b) {row rest : List Stmt} {u : Stmt}
    (hbody : b.body = row ++ u :: rest) :
    ∃ b' row' rest', e.block? l = some b' ∧ b'.body = row' ++ u :: rest' ∧
      row = row'.filter (Stmt.isKept e.neededNames) := by
  have hblock : (e.blocks.map (Block.withoutDead e.neededNames))[l]? = some b := hb
  rw [Array.getElem?_map, Option.map_eq_some_iff] at hblock
  obtain ⟨b', hb', rfl⟩ := hblock
  obtain ⟨r₁, r₂, hsplit, hr₁, hr₂⟩ := List.filter_eq_append_iff.mp hbody
  obtain ⟨r₃, r₄, rfl, hdead, -, -⟩ := List.filter_eq_cons_iff.mp hr₂
  refine ⟨b', r₁ ++ r₃, r₄, hb', by rw [hsplit, List.append_assoc], ?_⟩
  rw [List.filter_append, hr₁, List.filter_eq_nil_iff.mpr hdead, List.append_nil]

theorem stmts_withoutDead (e : Function) :
    e.withoutDead.stmts = e.stmts.filter (Stmt.isKept e.neededNames) := by
  rw [stmts, stmts, withoutDead, Array.toList_map, List.flatMap_map, List.filter_flatMap]
  rfl

theorem definedNames_filter_sublist (p : Stmt → Bool) (ss : List Stmt) :
    (definedNames (ss.filter p)).Sublist (definedNames ss) :=
  List.filter_sublist.filterMap _

theorem mem_definedNames_filter {ss : List Stmt} {x : String} (hx : x ∈ needed)
    (h : x ∈ definedNames ss) : x ∈ definedNames (ss.filter (Stmt.isKept needed)) := by
  obtain ⟨s, hs, hsx⟩ := exists_of_mem_definedNames h
  obtain ⟨v, hv, rfl⟩ := Option.map_eq_some_iff.mp hsx
  exact mem_definedNames (List.mem_filter.mpr ⟨hs, isKept_iff.mpr (Or.inr ⟨v, hv, hx⟩)⟩) hsx

theorem Settled.withoutDead {e : Function} {x : String} (h : e.Settled x) :
    e.withoutDead.Settled x := by
  have hsub := definedNames_filter_sublist (Stmt.isKept e.neededNames) e.stmts
  rw [← stmts_withoutDead] at hsub
  exact ⟨Nat.le_trans (hsub.count_le x) h.once, fun hx hmem => h.param hx (hsub.subset hmem)⟩

theorem blocks_withoutDead_covers (d : Device σ) (f : Function) (steps : Nat) (l : Label)
    {m n : Machine (σ × List Request)} (h : Exec.AgreeOn f.neededNames m n) :
    Exec.Covers Machine.requests Machine.requests (Exec.AgreeOn f.neededNames)
      (Exec.blocks d.recording f steps l m)
      (Exec.blocks d.recording f.withoutDead steps l n) := by
  induction steps generalizing l m n with
  | zero => exact h.requests_le
  | succ steps ih =>
      rw [Exec.blocks_succ_apply, Exec.blocks_succ_apply, block?_withoutDead]
      cases hb : f.block? l with
      | none => exact h.requests_le
      | some b =>
          have hmem := mem_blocks_of_block? hb
          have hbody := Exec.body_covers d (keepsUses_neededNames hmem) h
          simp only [Option.map_some, Block.withoutDead]
          revert hbody
          cases Exec.body d.recording b.body m with
          | error e m' =>
              -- the whole function stops inside this block; the rest may go on
              intro hbody
              refine List.IsPrefix.trans hbody ?_
              cases Exec.body d.recording (b.body.filter (Stmt.isKept f.neededNames)) n with
              | error e' n' => exact List.prefix_refl _
              | ok _ n' =>
                  simp only [Exec.final]
                  cases Exec.Next.of n'.env b.term with
                  | error e' => exact List.prefix_refl _
                  | ok next =>
                      cases next with
                      | goto l' => exact Exec.blocks_requests d _ steps l' n'
                      | done v => exact List.prefix_refl _
          | ok _ m' =>
              cases Exec.body d.recording (b.body.filter (Stmt.isKept f.neededNames)) n with
              | error e' n' => exact fun hbody => hbody.elim
              | ok _ n' =>
                  rintro ⟨-, h'⟩
                  simp only [h'.2.next (f.neededNames_closed.term b hmem)]
                  cases Exec.Next.of n'.env b.term with
                  | error e => exact h'.requests_le
                  | ok next =>
                      cases next with
                      | goto l' => exact ih l' h'
                      | done v => exact ⟨rfl, h'⟩

theorem recorded_run_withoutDead (d : Device σ) (f : Function) (args : List Value) (s : σ) :
    StandsFor (f.run d.recording args (s, [])) (f.withoutDead.run d.recording args (s, [])) := by
  have hstart : Exec.AgreeOn f.neededNames (f.begin args (s, []))
      (f.withoutDead.begin args (s, [])) := ⟨rfl, fun _ _ => rfl⟩
  exact standsFor_of_covers (fun m n h => h.1)
    (blocks_withoutDead_covers d f stepLimit f.entry hstart)

/-- A function that returns still returns the same without its dead statements,
after the same requests and with the device in the same state. A function that
stops early has by then made requests with which the other run begins. -/
theorem run_withoutDead (d : Device σ) (f : Function) (args : List Value) (s : σ) :
    match f.run d args s with
    | (.ok v, t) =>
      f.withoutDead.run d args s = (.ok v, t) ∧
        f.withoutDead.requests d args s = f.requests d args s
    | (.error _, _) => f.requests d args s <+: f.withoutDead.requests d args s := by
  have h := recorded_run_withoutDead d f args s
  rw [run_eq_of_recording d f args s, run_eq_of_recording d f.withoutDead args s,
    requests, requests]
  revert h
  rcases f.run d.recording args (s, []) with ⟨e | v, t⟩
  · exact fun h => h
  · intro h
    rw [show f.withoutDead.run d.recording args (s, []) = (.ok v, t) from h]
    exact ⟨rfl, rfl⟩

end Function

end SpmdArrays
