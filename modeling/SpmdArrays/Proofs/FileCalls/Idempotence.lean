import SpmdArrays.Proofs.FileCalls.FreshNames
import SpmdArrays.Proofs.FileCalls.NeededNames
import SpmdArrays.Proofs.Program.VisitingOrder

/-!
Making file calls positional a second time changes nothing. Handles come only
from calls of the `File` attribute, so a second pass over what the first one left
knows of no handle at all as long as it recognises no such call. The two passes
visit corresponding statements in the same order; at each of them the second
knows at most the front ends and the openers that the first one knew, the calls
that are left were not recognised by the first, and the calls that were put in go
through temporaries, about which neither pass knows anything.
-/

namespace SpmdArrays

/-! ### Facts of the second pass -/

structure Known.Quiet (k : Known) : Prop where
  file : k.file = none
  dataset : k.dataset = none
  closes : k.closes = none
  makesDataset : k.makesDataset = none
  makesGroup : k.makesGroup = none

namespace Facts

def Quiet (f : Facts) : Prop := ∀ x, (f.about x).Quiet

/-- Front ends and openers of the first are known as such to the second. -/
def Below (f g : Facts) : Prop :=
  ∀ x, ((f.about x).isFrontEnd = true → (g.about x).isFrontEnd = true) ∧
    ((f.about x).opensFiles = true → (g.about x).opensFiles = true)

theorem Quiet.learn {f : Facts} (h : f.Quiet) {name : String} {add : Known → Known}
    (hadd : (f.about name).Quiet → (add (f.about name)).Quiet) : (f.learn name add).Quiet := by
  intro x
  rw [about_learn]
  split
  · rename_i hx
    subst hx
    exact hadd (h name)
  · exact h x

theorem Below.learn {f g : Facts} (h : f.Below g) {name : String} {add : Known → Known}
    (hadd : ∀ k, (add k).isFrontEnd = k.isFrontEnd ∧ (add k).opensFiles = k.opensFiles) :
    (f.learn name add).Below g := by
  intro x
  rw [about_learn]
  split
  · rw [(hadd _).1, (hadd _).2]
    exact h x
  · exact h x

theorem quiet_empty : Quiet {} := by
  intro x
  rw [about_empty]
  exact ⟨rfl, rfl, rfl, rfl, rfl⟩

theorem below_empty (g : Facts) : Below {} g := by
  intro x
  rw [about_empty]
  exact ⟨nofun, nofun⟩

theorem Quiet.noteConst {f : Facts} (h : f.Quiet) (v : Var) (lit : Literal) :
    (f.noteConst v lit).Quiet := by
  cases lit with
  | str s => exact h.learn fun hk => ⟨hk.1, hk.2, hk.3, hk.4, hk.5⟩
  | _ => exact h

theorem Below.noteConst {f g : Facts} (h : f.Below g) (v : Var) (lit : Literal) :
    (f.noteConst v lit).Below g := by
  cases lit with
  | str s => exact h.learn fun _ => ⟨rfl, rfl⟩
  | _ => exact h

theorem Quiet.noteCopy {f : Facts} (h : f.Quiet) (t source : Var) :
    (f.noteCopy t source).Quiet := by
  refine h.learn fun hk => ⟨?_, ?_, hk.closes, hk.makesDataset, hk.makesGroup⟩
  · simp only [Known.inherit, hk.file, (h source.name).file]
    rfl
  · simp only [Known.inherit, hk.dataset, (h source.name).dataset]
    rfl

theorem Below.noteCopy {f g : Facts} (h : f.Below g) (t source : Var) :
    (f.noteCopy t source).Below g :=
  h.learn fun _ => ⟨rfl, rfl⟩

theorem Quiet.noteCopies {f : Facts} (h : f.Quiet) (body : List Stmt) :
    (f.noteCopies body).Quiet :=
  noteCopies_induct h fun _ _ _ _ hg => hg.learn fun hk => ⟨hk.1, hk.2, hk.3, hk.4, hk.5⟩

theorem Below.noteCopies {f g : Facts} (h : f.Below g) (body : List Stmt) :
    (f.noteCopies body).Below g :=
  noteCopies_induct (P := fun f => f.Below g) h fun _ _ _ _ hg => hg.learn fun _ => ⟨rfl, rfl⟩

def SameFlags (f g : Facts) : Prop :=
  ∀ x, (f.about x).isFrontEnd = (g.about x).isFrontEnd ∧
    (f.about x).opensFiles = (g.about x).opensFiles

theorem SameFlags.refl (f : Facts) : f.SameFlags f := fun _ => ⟨rfl, rfl⟩

theorem sameFlags_learn (f : Facts) (name : String) {add : Known → Known}
    (hadd : ∀ k, (add k).isFrontEnd = k.isFrontEnd ∧ (add k).opensFiles = k.opensFiles) :
    f.SameFlags (f.learn name add) := by
  intro x
  rw [about_learn]
  split
  · exact ⟨(hadd _).1.symm, (hadd _).2.symm⟩
  · exact ⟨rfl, rfl⟩

theorem SameFlags.trans {f g h : Facts} (hfg : f.SameFlags g) (hgh : g.SameFlags h) :
    f.SameFlags h := fun x => ⟨(hfg x).1.trans (hgh x).1, (hfg x).2.trans (hgh x).2⟩

theorem sameFlags_noteConst (f : Facts) (v : Var) (lit : Literal) :
    f.SameFlags (f.noteConst v lit) := by
  cases lit with
  | str s => exact f.sameFlags_learn _ fun _ => ⟨rfl, rfl⟩
  | _ => exact .refl f

theorem sameFlags_noteCopies (f : Facts) (body : List Stmt) : f.SameFlags (f.noteCopies body) :=
  noteCopies_induct (P := fun g => f.SameFlags g) (.refl f)
    fun g _ _ _ hg => hg.trans (g.sameFlags_learn _ fun _ => ⟨rfl, rfl⟩)

theorem Below.of_sameFlags {f g g' : Facts} (h : f.Below g) (hg : g.SameFlags g') :
    f.Below g' := by
  intro x
  rw [← (hg x).1, ← (hg x).2]
  exact h x

end Facts

namespace Expand

/-! ### Statements that a second pass leaves -/

/-- A statement that is not recognised by a pass that knows at most the front
ends and openers of `f` and no handle, and that tells it of no new ones. -/
def Inert (f : Facts) : Stmt → Prop
  | .assign _ (.global m) => m ≠ .h5py
  | .assign _ (.attr base name) => name ≠ "File" ∨ (f.about base.name).isFrontEnd = false
  | .assign .. => True
  | .call _ callee _ _ => (f.about callee.name).opensFiles = false
  | .store .. => True

/-- What the second pass may know where the first is in state `st`. -/
structure Trails (st : Expansion) (g : Facts) : Prop where
  quiet : g.Quiet
  below : g.Below st.facts

variable {c r : FileScope} {st st' : Expansion}

theorem eq_false_of_below {a b : Bool} (h : a = true → b = true) (hb : b = false) : a = false := by
  cases a with
  | false => rfl
  | true => rw [h rfl] at hb; cases hb

theorem stmt_inert {u : Stmt} {tail : Expansion} (hu : Inert st.facts u)
    (h : Trails st tail.facts) :
    ∃ tail', stmt c u tail = .ok ([u], tail') ∧ tail'.nextTemp = tail.nextTemp ∧
      Trails st tail'.facts := by
  obtain ⟨hq, hb⟩ := h
  cases u with
  | assign t value =>
      cases value with
      | global m =>
          cases m with
          | h5py => exact absurd rfl hu
          | ioAbi => exact ⟨tail, rfl, rfl, hq, hb⟩
          | other name => exact ⟨tail, rfl, rfl, hq, hb⟩
      | attr base name =>
          refine ⟨tail, ?_, rfl, hq, hb⟩
          have hfile : (tail.about base).file.isSome = false := by
            rw [show (tail.about base).file = none from (hq base.name).file]
            rfl
          change assign c t (.attr base name) tail = _
          unfold assign
          simp only [bind_apply, about_apply]
          by_cases hfe : (tail.about base).isFrontEnd = true
          · have hname : name ≠ "File" := by
              rcases hu with hname | hbase
              · exact hname
              · rw [(hb base.name).1 hfe] at hbase
                cases hbase
            rw [if_pos hfe, if_neg hname]
            rfl
          · rw [if_neg hfe, hfile]
            rfl
      | constItem base index indexVar =>
          refine ⟨tail, ?_, rfl, hq, hb⟩
          change assign c t (.constItem base index indexVar) tail = _
          unfold assign
          simp only [bind_apply, about_apply, show (tail.about base).file = none from
            (hq base.name).file, show (tail.about base).dataset = none from
            (hq base.name).dataset]
          rfl
      | item base index =>
          refine ⟨tail, ?_, rfl, hq, hb⟩
          change assign c t (.item base index) tail = _
          unfold assign
          simp only [bind_apply, about_apply, show (tail.about base).file = none from
            (hq base.name).file, show (tail.about base).dataset = none from
            (hq base.name).dataset]
          rfl
      | tuple items =>
          exact ⟨_, rfl, rfl, hq.learn fun hk => ⟨hk.1, hk.2, hk.3, hk.4, hk.5⟩,
            hb.learn fun _ => ⟨rfl, rfl⟩⟩
      | const lit => exact ⟨_, rfl, rfl, hq.noteConst t lit, hb.noteConst t lit⟩
      | copy source => exact ⟨_, rfl, rfl, hq.noteCopy t source, hb.noteCopy t source⟩
      | alloc shape elem => exact ⟨tail, rfl, rfl, hq, hb⟩
  | call t callee args kws =>
      refine ⟨tail, ?_, rfl, hq, hb⟩
      have hopen : (tail.about callee).opensFiles = false :=
        eq_false_of_below (hb callee.name).2 hu
      have hk : (tail.about callee).Quiet := hq callee.name
      change call c t callee args kws tail = _
      unfold call
      simp only [bind_apply, about_apply, hopen, hk.closes, hk.makesDataset, hk.makesGroup]
      rfl
  | store t index value =>
      refine ⟨tail, ?_, rfl, hq, hb⟩
      have hk : (tail.about t).Quiet := hq t.name
      change store c t index value tail = _
      unfold store
      simp only [bind_apply, about_apply, hk.file, hk.dataset]
      rfl

/-- A statement that introduces a front end or an opener is left as well, and
then the second pass knows no more than the first one does now. -/
theorem stmt_frontEnd (t : Var) {tail : Expansion} (h : Trails st tail.facts) :
    ∃ tail', stmt c (.assign t (.global .h5py)) tail =
        .ok ([.assign t (.global .h5py)], tail') ∧ tail'.nextTemp = tail.nextTemp ∧
      Trails (st.learn t fun k => { k with isFrontEnd := true }) tail'.facts := by
  refine ⟨_, rfl, rfl, h.quiet.learn fun hk => ⟨hk.1, hk.2, hk.3, hk.4, hk.5⟩, ?_⟩
  intro x
  rw [Facts.about_learn]
  change _ ∧ (_ → ((st.facts.learn t.name _).about x).opensFiles = true)
  simp only [Expansion.learn_facts, Facts.about_learn]
  split
  · exact ⟨fun _ => rfl, (h.below x).2⟩
  · exact h.below x

theorem stmt_opener (t base : Var) {tail : Expansion} (h : Trails st tail.facts) :
    ∃ tail', stmt c (.assign t (.attr base "File")) tail =
        .ok ([.assign t (.attr base "File")], tail') ∧ tail'.nextTemp = tail.nextTemp ∧
      Trails (st.learn t fun k => { k with opensFiles := true }) tail'.facts := by
  have hgrow : st.facts.Below (st.learn t fun k => { k with opensFiles := true }).facts := by
    intro x
    simp only [Expansion.learn_facts, Facts.about_learn]
    split
    · exact ⟨fun hx => hx, fun _ => rfl⟩
    · exact ⟨fun hx => hx, fun hx => hx⟩
  have hfile : (tail.about base).file.isSome = false := by
    rw [show (tail.about base).file = none from (h.quiet base.name).file]
    rfl
  change ∃ tail', assign c t (.attr base "File") tail = _ ∧ _
  unfold assign
  simp only [bind_apply, about_apply]
  by_cases hfe : (tail.about base).isFrontEnd = true
  · rw [if_pos hfe, if_pos trivial]
    refine ⟨_, rfl, rfl, h.quiet.learn fun hk => ⟨hk.1, hk.2, hk.3, hk.4, hk.5⟩, ?_⟩
    intro x
    simp only [Expansion.learn_facts, Facts.about_learn]
    split
    · exact ⟨(h.below x).1, fun _ => rfl⟩
    · exact h.below x
  · rw [if_neg hfe, hfile]
    refine ⟨tail, rfl, rfl, h.quiet, fun x => ⟨?_, ?_⟩⟩
    · exact fun hx => (hgrow x).1 ((h.below x).1 hx)
    · exact fun hx => (hgrow x).2 ((h.below x).2 hx)

/-! ### What the first pass puts in is inert -/

/-- No temporary from number `n` on is known as an opener. -/
def NoOpener (f : Facts) (n : Nat) : Prop :=
  ∀ x, GeneratedFrom n x → (f.about x).opensFiles = false

theorem EntryPoint.name_ne_file (e : EntryPoint) : e.name ≠ "File" := by
  cases e <;> decide

section Emission

variable {f : Facts} {m n : Nat}

theorem inert_loadCode (e : EntryPoint) (loc : Loc) : ∀ u ∈ loadCode c e loc n, Inert f u := by
  intro u hu
  simp only [loadCode, List.mem_cons, List.not_mem_nil, or_false] at hu
  rcases hu with rfl | rfl
  · exact nofun
  · exact Or.inl (EntryPoint.name_ne_file e)

theorem inert_extentCode {sizeEntry : Var} (hs : (f.about sizeEntry.name).opensFiles = false)
    (d : DatasetRef) (loc : Loc) (dims : List Nat) (n : Nat) :
    ∀ u ∈ extentCode c sizeEntry d loc dims n, Inert f u := by
  induction dims generalizing n with
  | nil => exact fun u hu => nomatch hu
  | cons dim dims ih =>
      intro u hu
      rcases List.mem_cons.mp hu with rfl | hu
      · trivial
      · rcases List.mem_cons.mp hu with rfl | hu
        · exact hs
        · exact ih (n + 2) u hu

variable (hf : NoOpener f m) (hmn : m ≤ n)

include hf hmn

theorem inert_callCode (e : EntryPoint) (args : List Var) (target : Var) :
    ∀ u ∈ callCode c e args target n, Inert f u := by
  intro u hu
  rcases List.mem_append.mp hu with hu | hu
  · exact inert_loadCode e target.loc u hu
  · rw [List.mem_singleton] at hu
    subst hu
    exact hf _ (generatedFrom_temp c e.name target.loc (Nat.le_succ_of_le hmn))

theorem inert_transferCode (e : EntryPoint) (d : DatasetRef) (rank : Nat) {counts : Expr}
    (buffer : Var) (loc : Loc) (hcounts : ∀ t, Inert f (.assign t counts)) :
    ∀ u ∈ transferCode c e d rank counts buffer loc n, Inert f u := by
  intro u hu
  rcases List.mem_append.mp hu with hu | hu
  · simp only [List.mem_cons, List.not_mem_nil, or_false] at hu
    rcases hu with rfl | rfl | rfl | rfl
    · trivial
    · trivial
    · trivial
    · exact hcounts _
  · exact inert_callCode hf (by omega) e _ _ u hu

theorem inert_readCode (target : Var) (d : DatasetRef) (type : ArrayType) :
    ∀ u ∈ readCode c target d type n, Inert f u := by
  intro u hu
  simp only [readCode, List.mem_append] at hu
  rcases hu with ((hu | hu) | hu) | hu
  · exact inert_loadCode .size target.loc u hu
  · refine inert_extentCode (hf _ ?_) d target.loc _ _ u hu
    exact generatedFrom_temp c _ target.loc (Nat.le_succ_of_le hmn)
  · rw [List.mem_singleton] at hu
    subst hu
    trivial
  · have hcounts : ∀ t, Inert f
        (.assign t (.tuple (extentVars c target.loc (List.range type.rank) (n + 2)))) :=
      fun _ => trivial
    exact inert_transferCode hf (by omega) .read d type.rank target target.loc hcounts u hu

theorem inert_openCode (target name : Var) (mode : Option Var) :
    ∀ u ∈ openCode c target name n mode, Inert f u := by
  intro u hu
  cases mode with
  | some mode =>
      rcases List.mem_cons.mp hu with rfl | hu
      · trivial
      · exact inert_callCode hf (by omega) .openFile _ target u hu
  | none =>
      rcases List.mem_cons.mp hu with rfl | hu
      · trivial
      · rcases List.mem_cons.mp hu with rfl | hu
        · trivial
        · exact inert_callCode hf (by omega) .openFile _ target u hu

theorem inert_createDatasetCode (target file name shape elem : Var) (rank : Nat) :
    ∀ u ∈ createDatasetCode c target file name shape elem rank n, Inert f u := by
  intro u hu
  rcases List.mem_cons.mp hu with rfl | hu
  · trivial
  · exact inert_callCode hf (by omega) .createDataset _ target u hu

end Emission

/-- What one step of the first pass leaves for the second. -/
inductive Leaves (st : Expansion) (s : Stmt) (out : List Stmt) (st' : Expansion) : Prop
  | frontEnd (t : Var) (hs : s = .assign t (.global .h5py)) (hout : out = [s])
      (hst : st' = st.learn t fun k => { k with isFrontEnd := true })
  | opener (t base : Var) (hs : s = .assign t (.attr base "File")) (hout : out = [s])
      (hst : st' = st.learn t fun k => { k with opensFiles := true })
  | inert (hout : ∀ u ∈ out, Inert st.facts u) (hst : st.facts.SameFlags st'.facts)

theorem inert_singleton {u : Stmt} (h : Inert st.facts u) : ∀ v ∈ [u], Inert st.facts v := by
  intro v hv
  rw [List.mem_singleton] at hv
  subst hv
  exact h

theorem Plain.inert {value : Expr} (h : Plain st value) (t : Var) :
    Inert st.facts (.assign t value) := by
  cases h with
  | global h => exact h
  | alloc => trivial
  | frontEndAttr _ hn => exact Or.inl hn
  | keys => exact Or.inl (by decide)
  | attr hb _ => exact Or.inr hb
  | constItem => trivial
  | item => trivial

theorem Expands.leaves {s : Stmt} {out : List Stmt} {m : Nat} (h : Expands c st s out st')
    (hf : NoOpener st.facts m) (hm : m ≤ st.nextTemp) : Leaves st s out st' := by
  cases h with
  | frontEnd t => exact .frontEnd t rfl rfl rfl
  | opener t base _ => exact .opener t base rfl rfl rfl
  | method t base k _ _ =>
      refine .inert (inert_singleton (Or.inl ?_)) (Facts.sameFlags_learn _ _ fun q => ?_)
      · cases k <;> decide
      · cases k <;> exact ⟨rfl, rfl⟩
  | datasetVar t base v index _ =>
      refine .inert (inert_singleton trivial) ?_
      exact (st.facts.sameFlags_noteConst v index).trans
        (Facts.sameFlags_learn _ _ fun _ => ⟨rfl, rfl⟩)
  | datasetKey t base key _ =>
      refine .inert ?_ ?_
      · intro u hu
        simp only [List.mem_cons, List.not_mem_nil, or_false] at hu
        rcases hu with rfl | rfl <;> trivial
      · exact (st.facts.sameFlags_noteConst _ (.str key)).trans
          (Facts.sameFlags_learn _ _ fun _ => ⟨rfl, rfl⟩)
  | read t base index indexVar d type _ _ _ _ =>
      exact .inert (inert_readCode hf hm t d type) (.refl _)
  | datasetItem t base index _ =>
      exact .inert (inert_singleton trivial) (Facts.sameFlags_learn _ _ fun _ => ⟨rfl, rfl⟩)
  | tuple t items =>
      exact .inert (inert_singleton trivial) (Facts.sameFlags_learn _ _ fun _ => ⟨rfl, rfl⟩)
  | copy t source =>
      exact .inert (inert_singleton trivial) (Facts.sameFlags_learn _ _ fun _ => ⟨rfl, rfl⟩)
  | const t lit => exact .inert (inert_singleton trivial) (st.facts.sameFlags_noteConst t lit)
  | plain t value hp => exact .inert (inert_singleton (hp.inert t)) (.refl _)
  | openFile t callee args kws name _ _ =>
      exact .inert (inert_openCode hf hm t name _) (Facts.sameFlags_learn _ _ fun _ => ⟨rfl, rfl⟩)
  | closeFile t callee args kws file _ _ =>
      exact .inert (inert_callCode hf hm .closeFile _ t) (.refl _)
  | createDataset t callee args kws file name shape elem dims =>
      exact .inert (inert_createDatasetCode hf hm t file name shape elem dims.length)
        (Facts.sameFlags_learn _ _ fun _ => ⟨rfl, rfl⟩)
  | createGroup t callee args kws file name =>
      exact .inert (inert_callCode hf hm .createGroup _ t)
        (Facts.sameFlags_learn _ _ fun _ => ⟨rfl, rfl⟩)
  | call t callee args kws hc => exact .inert (inert_singleton hc.opens) (.refl _)
  | write t index value d rank _ _ _ _ =>
      exact .inert (inert_transferCode hf hm .write d rank value t.loc
        fun _ => Or.inl (by decide)) (.refl _)
  | store t index value _ _ => exact .inert (inert_singleton trivial) (.refl _)

/-! ### Two passes side by side -/

/-- The second pass follows the first one: the counter is past `m`, temporaries
from `m` on are no openers, and no more is known the second time. -/
structure Follows (m : Nat) (st : Expansion) (g : Facts) : Prop where
  counter : m ≤ st.nextTemp
  noOpener : NoOpener st.facts m
  trails : Trails st g

theorem Trails.mono {g : Facts} (h : Trails st g) (hst : st.facts.Below st'.facts) :
    Trails st' g :=
  ⟨h.quiet, fun x => ⟨fun hx => (hst x).1 ((h.below x).1 hx),
    fun hx => (hst x).2 ((h.below x).2 hx)⟩⟩

theorem NoOpener.of_sameFlags {f g : Facts} {m : Nat} (h : NoOpener f m) (hg : f.SameFlags g) :
    NoOpener g m := by
  intro x hx
  rw [← (hg x).2]
  exact h x hx

theorem stmts_inert {us : List Stmt} {tail : Expansion} (hus : ∀ u ∈ us, Inert st.facts u)
    (h : Trails st tail.facts) :
    ∃ tail', stmts c us tail = .ok (us, tail') ∧ tail'.nextTemp = tail.nextTemp ∧
      Trails st tail'.facts := by
  induction us generalizing tail with
  | nil => exact ⟨tail, rfl, rfl, h⟩
  | cons u us ih =>
      obtain ⟨t₁, h₁, hn₁, ht₁⟩ := stmt_inert (c := c) (hus u (List.mem_cons_self ..)) h
      obtain ⟨t₂, h₂, hn₂, ht₂⟩ := ih (fun v hv => hus v (List.mem_cons_of_mem _ hv)) ht₁
      refine ⟨t₂, ?_, hn₂.trans hn₁, ht₂⟩
      rw [stmts_cons_apply, h₁]
      simp only [h₂]
      rfl

theorem stmts_filter_singleton {s : Stmt} {p : Stmt → Bool} {tail tail' : Expansion}
    (h : stmt c s tail = .ok ([s], tail')) (hn : tail'.nextTemp = tail.nextTemp)
    (hkeep : Trails st tail'.facts) (hdrop : Trails st tail.facts) :
    ∃ t, stmts c ([s].filter p) tail = .ok ([s].filter p, t) ∧
      t.nextTemp = tail.nextTemp ∧ Trails st t.facts := by
  by_cases hp : p s = true
  · refine ⟨tail', ?_, hn, hkeep⟩
    rw [List.filter_cons_of_pos hp, List.filter_nil, stmts_cons_apply, h]
    rfl
  · refine ⟨tail, ?_, rfl, hdrop⟩
    rw [List.filter_cons_of_neg hp]
    rfl

theorem below_learn_flag (f : Facts) (name : String) {add : Known → Known}
    (hadd : ∀ k, (k.isFrontEnd = true → (add k).isFrontEnd = true) ∧
      (k.opensFiles = true → (add k).opensFiles = true)) : f.Below (f.learn name add) := by
  intro x
  rw [Facts.about_learn]
  split
  · exact hadd _
  · exact ⟨id, id⟩

theorem Expands.settled {m : Nat} {s : Stmt} {out : List Stmt} {tail : Expansion}
    (h : Expands c st s out st') (hf : Follows m st tail.facts)
    (hs : ∀ v ∈ s.vars, ¬ GeneratedFrom m v.name) (p : Stmt → Bool) :
    ∃ tail', stmts r (out.filter p) tail = .ok (out.filter p, tail') ∧
      tail'.nextTemp = tail.nextTemp ∧ Follows m st' tail'.facts := by
  have hcounter : m ≤ st'.nextTemp := Nat.le_trans hf.counter h.nextTemp_le
  cases h.leaves hf.noOpener hf.counter with
  | frontEnd t hs' hout hst =>
      subst hs' hout hst
      have hgrow : st.facts.Below (st.learn t fun k => { k with isFrontEnd := true }).facts :=
        below_learn_flag _ _ fun _ => ⟨fun _ => rfl, id⟩
      obtain ⟨t₁, h₁, hn₁, ht₁⟩ := stmt_frontEnd (c := r) t hf.trails
      obtain ⟨t₂, h₂, hn₂, ht₂⟩ := stmts_filter_singleton (p := p) h₁ hn₁ ht₁ (hf.trails.mono hgrow)
      refine ⟨t₂, h₂, hn₂, hcounter, ?_, ht₂⟩
      intro x hx
      rw [Expansion.learn_facts, Facts.about_learn]
      split
      · exact hf.noOpener x hx
      · exact hf.noOpener x hx
  | opener t base hs' hout hst =>
      subst hs' hout hst
      have hgrow : st.facts.Below (st.learn t fun k => { k with opensFiles := true }).facts :=
        below_learn_flag _ _ fun _ => ⟨id, fun _ => rfl⟩
      obtain ⟨t₁, h₁, hn₁, ht₁⟩ := stmt_opener (c := r) t base hf.trails
      obtain ⟨t₂, h₂, hn₂, ht₂⟩ := stmts_filter_singleton (p := p) h₁ hn₁ ht₁ (hf.trails.mono hgrow)
      refine ⟨t₂, h₂, hn₂, hcounter, ?_, ht₂⟩
      intro x hx
      have hne : t.name ≠ x := by
        intro htx
        exact hs t (by simp [Stmt.vars, Stmt.target?]) (htx ▸ hx)
      rw [Expansion.learn_facts, Facts.about_learn, if_neg hne]
      exact hf.noOpener x hx
  | inert hout hst =>
      have hus : ∀ u ∈ out.filter p, Inert st.facts u :=
        fun u hu => hout u (List.mem_filter.mp hu).1
      obtain ⟨t₁, h₁, hn₁, ht₁⟩ := stmts_inert (c := r) hus hf.trails
      refine ⟨t₁, h₁, hn₁, hcounter, hf.noOpener.of_sameFlags hst, ht₁.quiet, ?_⟩
      exact ht₁.below.of_sameFlags hst

theorem stmts_settled {m : Nat} {ss out : List Stmt} (tail : Expansion)
    (h : stmts c ss st = .ok (out, st')) (hf : Follows m st tail.facts)
    (hss : ∀ s ∈ ss, ∀ v ∈ s.vars, ¬ GeneratedFrom m v.name) (p : Stmt → Bool) :
    ∃ tail', stmts r (out.filter p) tail = .ok (out.filter p, tail') ∧
      tail'.nextTemp = tail.nextTemp ∧ Follows m st' tail'.facts := by
  induction ss generalizing st out tail with
  | nil =>
      cases h
      exact ⟨tail, rfl, rfl, hf⟩
  | cons s ss ih =>
      obtain ⟨o₁, s₁, o₂, hs, hrest, rfl⟩ := stmts_cons_ok h
      obtain ⟨t₁, h₁, hn₁, hf₁⟩ :=
        (expands_of_stmt hs).settled (r := r) hf (hss s (List.mem_cons_self ..)) p
      obtain ⟨t₂, h₂, hn₂, hf₂⟩ :=
        ih t₁ hrest hf₁ fun t ht => hss t (List.mem_cons_of_mem _ ht)
      refine ⟨t₂, ?_, hn₂.trans hn₁, hf₂⟩
      rw [List.filter_append]
      exact stmts_append h₁ h₂

def keepingBody (p : Stmt → Bool) (b : Block) : Block := { b with body := b.body.filter p }

theorem block_settled {m : Nat} {b b' : Block} {tail : Expansion}
    (h : block c b st = .ok (b', st')) (hf : Follows m st tail.facts)
    (hb : ∀ s ∈ b.body, ∀ v ∈ s.vars, ¬ GeneratedFrom m v.name) (p : Stmt → Bool) :
    ∃ tail', block r (keepingBody p b') tail = .ok (keepingBody p b', tail') ∧
      tail'.nextTemp = tail.nextTemp ∧ Follows m st' tail'.facts := by
  obtain ⟨out, hs, rfl⟩ := block_ok h
  have hflags := st.facts.sameFlags_noteCopies b.body
  have hquiet := hf.trails.quiet.noteCopies (out.filter p)
  have hbelow := (hf.trails.below.noteCopies (out.filter p)).of_sameFlags hflags
  obtain ⟨t₁, h₁, hn₁, hf₁⟩ := stmts_settled (r := r)
    { tail with facts := tail.facts.noteCopies (out.filter p) } hs
    ⟨hf.counter, hf.noOpener.of_sameFlags hflags, hquiet, hbelow⟩ hb p
  refine ⟨t₁, ?_, hn₁, hf₁⟩
  rw [block_apply]
  simp only [keepingBody, h₁]

theorem blocks_settled {m : Nat} {bs bs' : Array Block} {ls : List Label} (tail : Expansion)
    (h : blocks c bs ls st = .ok (bs', st')) (hnodup : ls.Nodup) (hf : Follows m st tail.facts)
    (hbs : ∀ l ∈ ls, ∀ b, bs[l]? = some b →
      ∀ s ∈ b.body, ∀ v ∈ s.vars, ¬ GeneratedFrom m v.name) (p : Stmt → Bool) :
    ∃ tail', blocks r (bs'.map (keepingBody p)) ls tail =
        .ok (bs'.map (keepingBody p), tail') ∧ tail'.nextTemp = tail.nextTemp := by
  induction ls generalizing bs st tail with
  | nil => exact ⟨tail, rfl, rfl⟩
  | cons l ls ih =>
      obtain ⟨hl, hnodup⟩ := List.nodup_cons.mp hnodup
      rw [blocks] at h
      cases hb : bs[l]? with
      | none =>
          rw [hb] at h
          obtain ⟨t₁, h₁, hn₁⟩ :=
            ih tail h hnodup hf fun k hk => hbs k (List.mem_cons_of_mem _ hk)
          refine ⟨t₁, ?_, hn₁⟩
          rw [blocks, Array.getElem?_map, blocks_getElem?_of_not_mem h hl, hb]
          exact h₁
      | some b =>
          rw [hb] at h
          obtain ⟨b', s₁, hblock, h⟩ := bind_eq_ok h
          have hlt : l < bs.size := (Array.getElem?_eq_some_iff.mp hb).1
          have hb' : bs'[l]? = some b' := by
            rw [blocks_getElem?_of_not_mem h hl, Array.getElem?_setIfInBounds_self_of_lt hlt]
          obtain ⟨t₁, h₁, hn₁, hf₁⟩ :=
            block_settled (r := r) hblock hf (hbs l (List.mem_cons_self ..) b hb) p
          have hrest : ∀ k ∈ ls, ∀ b₁, (bs.setIfInBounds l b')[k]? = some b₁ →
              ∀ s ∈ b₁.body, ∀ v ∈ s.vars, ¬ GeneratedFrom m v.name := by
            intro k hk b₁ hb₁
            have hne : l ≠ k := fun hlk => hl (hlk ▸ hk)
            rw [Array.getElem?_setIfInBounds_ne hne] at hb₁
            exact hbs k (List.mem_cons_of_mem _ hk) b₁ hb₁
          obtain ⟨t₂, h₂, hn₂⟩ := ih t₁ h hnodup hf₁ hrest
          refine ⟨t₂, ?_, hn₂.trans hn₁⟩
          have hmap : (bs'.map (keepingBody p))[l]? = some (keepingBody p b') := by
            rw [Array.getElem?_map, hb']
            rfl
          have hset : (bs'.map (keepingBody p)).setIfInBounds l (keepingBody p b') =
              bs'.map (keepingBody p) := by
            apply Array.ext_getElem?
            intro k
            by_cases hk : l = k
            · subst hk
              rw [Array.getElem?_setIfInBounds_self_of_lt
                (Array.getElem?_eq_some_iff.mp hmap).1, hmap]
            · rw [Array.getElem?_setIfInBounds_ne hk]
          rw [blocks, hmap]
          simp only [bind_apply, h₁, hset, h₂]

theorem blocks_term {bs bs' : Array Block} {ls : List Label}
    (h : blocks c bs ls st = .ok (bs', st')) (l : Label) :
    (bs'[l]?).map Block.term = (bs[l]?).map Block.term := by
  induction ls generalizing bs st with
  | nil =>
      cases h
      rfl
  | cons k ls ih =>
      rw [blocks] at h
      cases hk : bs[k]? with
      | none =>
          rw [hk] at h
          exact ih h
      | some b =>
          rw [hk] at h
          obtain ⟨b', s₁, hblock, h⟩ := bind_eq_ok h
          have hterm : b'.term = b.term := by
            obtain ⟨out, -, rfl⟩ := block_ok hblock
            rfl
          rw [ih h, Array.getElem?_setIfInBounds]
          split
          · rename_i hkl
            subst hkl
            split
            · rw [hk, Option.map_some, Option.map_some, hterm]
            · rename_i hsize
              exact absurd (Array.getElem?_eq_some_iff.mp hk).1 hsize
          · rfl

end Expand

namespace Function

theorem order_eq_of_term {f g : Function} (hentry : f.entry = g.entry)
    (hterm : ∀ l : Label, (f.blocks[l]?).map Block.term = (g.blocks[l]?).map Block.term) :
    f.order = g.order := by
  have hsize : f.blocks.size = g.blocks.size := by
    have hle : ∀ l : Label, f.blocks.size ≤ l ↔ g.blocks.size ≤ l := by
      intro l
      rw [← Array.getElem?_eq_none_iff, ← Array.getElem?_eq_none_iff,
        ← Option.map_eq_none_iff, hterm l, Option.map_eq_none_iff]
    exact Nat.le_antisymm ((hle _).mpr (Nat.le_refl _)) ((hle _).mp (Nat.le_refl _))
  refine order_congr hentry hsize ?_
  funext l
  have hl := hterm l
  unfold successors block?
  revert hl
  cases f.blocks[l]? <;> cases g.blocks[l]? <;> simp +contextual

/-- A function whose file calls were made positional is left exactly as it is the
next time, with whatever catalog. -/
theorem expandFiles_expandFiles {f g : Function} {catalog : Option Inspector}
    (hf : f.TempsUnused) (h : f.expandFiles catalog = .ok g) (again : Option Inspector) :
    g.expandFiles again = .ok g := by
  obtain ⟨bs, st, hbs, rfl⟩ := expandFiles_ok h
  let e : Function := { f with blocks := bs, nextTemp := st.nextTemp }
  have hstart : Expand.Follows f.nextTemp { nextTemp := f.nextTemp } {} :=
    ⟨Nat.le_refl _, fun x _ => by rw [Facts.about_empty], Facts.quiet_empty, Facts.below_empty _⟩
  have hunused : ∀ l ∈ f.order, ∀ b, f.blocks[l]? = some b → ∀ s ∈ b.body, ∀ v ∈ s.vars,
      ¬ GeneratedFrom f.nextTemp v.name := by
    intro l _ b hb s hs v hv
    exact hf v.name ⟨b, (Array.mem_of_getElem? hb).val, Or.inl ⟨s, hs, v, hv, rfl⟩⟩
  obtain ⟨tail, htail, hcounter⟩ := Expand.blocks_settled
    (r := e.withoutDead.fileScope again) { nextTemp := st.nextTemp } hbs
    f.order_nodup hstart hunused (Stmt.isKept e.neededNames)
  have horder : e.withoutDead.order = f.order := by
    refine order_eq_of_term rfl fun l => ?_
    rw [← Expand.blocks_term hbs l]
    simp only [withoutDead, Array.getElem?_map, Option.map_map]
    rfl
  have hrun : Expand.blocks (e.withoutDead.fileScope again) e.withoutDead.blocks
      e.withoutDead.order { nextTemp := e.withoutDead.nextTemp } =
        .ok (e.withoutDead.blocks, tail) := by
    rw [horder]
    exact htail
  change e.withoutDead.expandFiles again = .ok e.withoutDead
  unfold expandFiles
  simp only [StateT.run, hrun]
  change Except.ok ({ e.withoutDead with nextTemp := tail.nextTemp }).withoutDead = _
  rw [hcounter]
  exact congrArg Except.ok e.withoutDead_withoutDead

/-- Reads a dataset, then calls in a loop what becomes an opener only behind the
call, so that the call is left by every pass. -/
def readThenRetry : Function where
  name := "load"
  params := ["retry", "again"]
  blocks := #[
    { body := [
        .assign ⟨0, "m", ⟨1, 1⟩⟩ (.global .h5py),
        .assign ⟨0, "opener", ⟨2, 1⟩⟩ (.attr ⟨0, "m", ⟨2, 1⟩⟩ "File"),
        .assign ⟨0, "source", ⟨3, 1⟩⟩ (.const (.str "stock.h5")),
        .call ⟨0, "f", ⟨4, 1⟩⟩ ⟨0, "opener", ⟨4, 1⟩⟩ [⟨0, "source", ⟨4, 1⟩⟩] [],
        .assign ⟨0, "d", ⟨5, 1⟩⟩ (.constItem ⟨0, "f", ⟨5, 1⟩⟩ (.str "points") none),
        .assign ⟨0, "x", ⟨6, 1⟩⟩ (.constItem ⟨0, "d", ⟨6, 1⟩⟩ (.slice .full) none)]
      term := .jump 1 },
    { body := [
        .call ⟨0, "y", ⟨7, 1⟩⟩ ⟨0, "retry", ⟨7, 1⟩⟩ [⟨0, "source", ⟨7, 1⟩⟩] [],
        .assign ⟨0, "retry", ⟨8, 1⟩⟩ (.attr ⟨0, "m", ⟨8, 1⟩⟩ "File")]
      term := .branch ⟨0, "again", ⟨9, 1⟩⟩ 1 2 },
    { term := .ret (some ⟨0, "x", ⟨9, 1⟩⟩) }]

def pointsCatalog : Catalog := BySource.empty.insert "stock.h5" "points" ⟨.float64, [100, 4]⟩

theorem readThenRetry_expanded_once :
    readThenRetry.TempsUnused ∧
      ∃ g, readThenRetry.expandFiles (some pointsCatalog.inspect) = .ok g ∧
        g.expandFiles none = .ok g := by
  have hunused : readThenRetry.TempsUnused := tempsUnused_of_not_isTemp (by decide)
  have horder : readThenRetry.order = [0, 1, 2] := by
    simp [readThenRetry, order, reachOrder, BlockGraph.search, successors, block?,
      Terminator.successors]
    decide
  obtain ⟨g, hg⟩ : ∃ g, readThenRetry.expandFiles (some pointsCatalog.inspect) = .ok g :=
    exists_expandFiles horder (by decide +kernel)
  exact ⟨hunused, g, hg, expandFiles_expandFiles hunused hg none⟩

end Function

end SpmdArrays
