import SpmdArrays.Proofs.Exec.Definers
import SpmdArrays.Proofs.FileCalls.DeadCode
import SpmdArrays.Proofs.FileCalls.Roles
import SpmdArrays.Proofs.Program.Dominance

/-!
The calls that are put in for file calls. Each of them goes to an entry point that the
statements in front of it have loaded, and takes as many arguments as the entry point
does. The arguments are temporaries that are put in with the call, or variables that are
given: those that the statement had, and those that were noted when a handle or a dataset
was made.
-/

namespace SpmdArrays

namespace Expand

/-! ### Calls of loaded entry points -/

/-- The row has taken the table of entry points and looked the entry point up in it, and has
not assigned the names of these again since it used or got them. -/
def LoadsEntry (row : List Stmt) (callee table : Var) (e : EntryPoint) : Prop :=
  ∃ r₁ r₂ r₃, row = r₁ ++ .assign table (.global .ioAbi) ::
      (r₂ ++ .assign callee (.attr table e.name) :: r₃) ∧
    table.name ∉ definedNames r₂ ∧ callee.name ∉ definedNames r₃

/-- A call of an entry point as it is put in. The row in front of it has loaded the entry
point, the arguments are as many as the entry point takes, and each of them is assigned in
the row or was there before. -/
structure Loaded (n : Nat) (given : Var → Prop) (row : List Stmt) (callee : Var)
    (args : List Var) (kws : List (String × Var)) (e : EntryPoint) (table : Var) : Prop where
  positional : kws = []
  arity : args.length = e.arity
  temps : GeneratedFrom n table.name ∧ GeneratedFrom n callee.name
  loads : LoadsEntry row callee table e
  args : ∀ v ∈ args, v.name ∈ definedNames row ∨ given v

/-- All calls of the row are like that. -/
def CallsLoaded (n : Nat) (given : Var → Prop) (out : List Stmt) : Prop :=
  ∀ row t callee args kws rest, out = row ++ .call t callee args kws :: rest →
    ∃ e table, Loaded n given row callee args kws e table

section

variable {n k : Nat} {given : Var → Prop} {row a b : List Stmt} {callee table : Var}
  {args : List Var} {kws : List (String × Var)} {e : EntryPoint}

theorem LoadsEntry.append_row (h : LoadsEntry row callee table e) (before : List Stmt) :
    LoadsEntry (before ++ row) callee table e := by
  obtain ⟨r₁, r₂, r₃, rfl, hr₂, hr₃⟩ := h
  exact ⟨before ++ r₁, r₂, r₃, by simp, hr₂, hr₃⟩

theorem LoadsEntry.append_of_not_mem {rest : List Stmt} (h : LoadsEntry row callee table e)
    (hrest : callee.name ∉ definedNames rest) : LoadsEntry (row ++ rest) callee table e := by
  obtain ⟨r₁, r₂, r₃, rfl, hr₂, hr₃⟩ := h
  refine ⟨r₁, r₂, r₃ ++ rest, by simp, hr₂, ?_⟩
  rw [definedNames_append]
  exact fun hmem => (List.mem_append.mp hmem).elim hr₃ hrest

theorem loadsEntry_loadCode (c : FileScope) (e : EntryPoint) (loc : Loc) (k : Nat)
    (front : List Stmt) :
    LoadsEntry (front ++ loadCode c e loc k) (entryVar c e loc k) (temp c "io_abi" loc k) e :=
  ⟨front, [], [], rfl, List.not_mem_nil, List.not_mem_nil⟩

theorem Loaded.append_row (h : Loaded n given row callee args kws e table) (before : List Stmt) :
    Loaded n given (before ++ row) callee args kws e table := by
  refine { h with loads := h.loads.append_row before, args := fun v hv => ?_ }
  rw [definedNames_append]
  exact (h.args v hv).imp_left (List.mem_append_right _)

theorem Loaded.mono (h : Loaded k given row callee args kws e table) (hle : n ≤ k) :
    Loaded n given row callee args kws e table :=
  { h with temps := ⟨h.temps.1.mono hle, h.temps.2.mono hle⟩ }

theorem CallsLoaded.append (ha : CallsLoaded n given a) (hb : CallsLoaded n given b) :
    CallsLoaded n given (a ++ b) := by
  intro row t callee args kws rest h
  rcases append_eq_append_cons h with ⟨rest', ha'⟩ | ⟨row', rfl, hb'⟩
  · exact ha row t callee args kws rest' ha'
  · obtain ⟨e, table, hload⟩ := hb row' t callee args kws rest hb'
    exact ⟨e, table, hload.append_row a⟩

def CallFree (ss : List Stmt) : Prop := ∀ t callee args kws, .call t callee args kws ∉ ss

theorem CallFree.callsLoaded (h : CallFree a) : CallsLoaded n given a := by
  rintro row t callee args kws rest rfl
  exact absurd (List.mem_append_right _ (List.mem_cons_self ..)) (h t callee args kws)

theorem callFree_loadCode (c : FileScope) (e : EntryPoint) (loc : Loc) (n : Nat) :
    CallFree (loadCode c e loc n) := by
  simp [CallFree, loadCode]

/-- The one call is the last statement, and its entry point is loaded right before it. -/
theorem callsLoaded_callCode {c : FileScope} {t : Var} (pre : List Stmt) (hpre : CallFree pre)
    (hle : n ≤ k) (harity : args.length = e.arity)
    (hargs : ∀ v ∈ args, v.name ∈ definedNames pre ∨ given v) :
    CallsLoaded n given (pre ++ callCode c e args t k) := by
  intro row t' callee args' kws rest h
  rw [callCode, ← List.append_assoc] at h
  rcases append_eq_append_cons h with ⟨rest', hfront⟩ | ⟨row', rfl, hlast⟩
  · have hmem : .call t' callee args' kws ∈ pre ++ loadCode c e t.loc k := by simp [hfront]
    rcases List.mem_append.mp hmem with hmem | hmem
    · exact absurd hmem (hpre t' callee args' kws)
    · exact absurd hmem (callFree_loadCode c e t.loc k t' callee args' kws)
  · obtain ⟨rfl, hcall⟩ : row' = [] ∧ .call t' callee args' kws =
        Stmt.call t (entryVar c e t.loc k) args [] := by
      cases row' with
      | nil => exact ⟨rfl, (List.cons.inj hlast).1.symm⟩
      | cons u row' => simp at hlast
    cases hcall
    refine ⟨e, temp c "io_abi" t.loc k, rfl, harity, ⟨generatedFrom_temp _ _ _ hle,
      generatedFrom_temp _ _ _ (by omega)⟩, ?_, fun v hv => ?_⟩
    · rw [List.append_nil]
      exact loadsEntry_loadCode c e t.loc k pre
    · rw [List.append_nil, definedNames_append]
      exact (hargs v hv).imp_left (List.mem_append_left _)

/-! ### What is put in for one statement -/

theorem callsLoaded_transferCode {c : FileScope} (hn : e.arity = 7) {d : DatasetRef} {rank : Nat}
    {counts : Expr} {buffer : Var} {loc : Loc} (hfile : given d.file) (hname : given d.name)
    (hbuffer : given buffer) (hle : n ≤ k) :
    CallsLoaded n given (transferCode c e d rank counts buffer loc k) := by
  refine callsLoaded_callCode _ (by simp [CallFree, intConst]) (by omega) (by simp [hn]) ?_
  intro v hv
  simp only [List.mem_cons, List.not_mem_nil, or_false] at hv
  rcases hv with rfl | rfl | rfl | rfl | rfl | rfl | rfl
  · exact Or.inr hfile
  · exact Or.inr hname
  · exact Or.inl (by simp [definedNames, intConst, Stmt.target?])
  · exact Or.inl (by simp [definedNames, intConst, Stmt.target?])
  · exact Or.inl (by simp [definedNames, intConst, Stmt.target?])
  · exact Or.inl (by simp [definedNames, intConst, Stmt.target?])
  · exact Or.inr hbuffer

theorem call_extentCode {c : FileScope} {sizeEntry : Var} {d : DatasetRef} {loc : Loc}
    {dims : List Nat} {t : Var} {rest : List Stmt}
    (h : extentCode c sizeEntry d loc dims k = row ++ .call t callee args kws :: rest) :
    callee = sizeEntry ∧ kws = [] ∧
      ∃ dim, args = [d.file, d.name, dim] ∧ dim.name ∈ definedNames row := by
  induction dims generalizing k row with
  | nil => simp [extentCode] at h
  | cons dim dims ih =>
      rw [extentCode] at h
      match row with
      | [] => simp [intConst] at h
      | [u] =>
          simp only [List.cons_append, List.nil_append, List.cons.injEq, Stmt.call.injEq] at h
          obtain ⟨rfl, ⟨-, rfl, rfl, rfl⟩, -⟩ := h
          exact ⟨rfl, rfl, temp c "h5_dim" loc k, rfl,
            by simp [definedNames, intConst, Stmt.target?]⟩
      | u :: w :: row =>
          simp only [List.cons_append, List.cons.injEq] at h
          obtain ⟨hcallee, hkws, v, hargs, hv⟩ := ih h.2.2
          refine ⟨hcallee, hkws, v, hargs, ?_⟩
          rw [definedNames_cons, definedNames_cons]
          exact List.mem_append_right _ (List.mem_append_right _ hv)

theorem entryVar_not_mem_extentCode (c : FileScope) (e : EntryPoint) (sizeEntry : Var)
    (d : DatasetRef) (loc : Loc) (dims : List Nat) {next : Nat} (hnext : k + 1 < next) :
    (entryVar c e loc k).name ∉ definedNames (extentCode c sizeEntry d loc dims next) := by
  rw [definedNames_extentCode]
  intro hmem
  obtain ⟨⟨stem, number⟩, hp, heq⟩ := List.mem_map.mp hmem
  have hnum := List.mem_map_of_mem (f := Prod.snd) hp
  rw [map_snd_extentTemps, List.mem_range'_1] at hnum
  have := (Var.tempName_inj heq).2
  omega

theorem callsLoaded_extentCode {c : FileScope} {d : DatasetRef} {loc : Loc} {dims : List Nat}
    (hfile : given d.file) (hname : given d.name) (hle : n ≤ k) {next : Nat}
    (hnext : k + 1 < next) :
    CallsLoaded n given
      (loadCode c .size loc k ++ extentCode c (entryVar c .size loc k) d loc dims next) := by
  intro row t callee args kws rest h
  rcases append_eq_append_cons h with ⟨rest', hload⟩ | ⟨row', rfl, hcalls⟩
  · exact (callFree_loadCode c .size loc k).callsLoaded _ _ _ _ _ _ hload
  · obtain ⟨rfl, rfl, dim, rfl, hdim⟩ := call_extentCode hcalls
    have hrow : (entryVar c .size loc k).name ∉ definedNames row' := by
      have hnot := entryVar_not_mem_extentCode c .size (entryVar c .size loc k) d loc dims hnext
      rw [hcalls, definedNames_append] at hnot
      exact fun hmem => hnot (List.mem_append_left _ hmem)
    refine ⟨.size, temp c "io_abi" loc k, rfl, rfl, ⟨generatedFrom_temp _ _ _ hle,
      generatedFrom_temp _ _ _ (by omega)⟩,
      (loadsEntry_loadCode c .size loc k []).append_of_not_mem hrow, fun v hv => ?_⟩
    simp only [List.mem_cons, List.not_mem_nil, or_false] at hv
    rcases hv with rfl | rfl | rfl
    · exact Or.inr hfile
    · exact Or.inr hname
    · rw [definedNames_append]
      exact Or.inl (List.mem_append_right _ hdim)

theorem callsLoaded_readCode {c : FileScope} {t : Var} {d : DatasetRef} {type : ArrayType}
    (hfile : given d.file) (hname : given d.name) (htarget : given t) :
    CallsLoaded n given (readCode c t d type n) := by
  refine ((callsLoaded_extentCode hfile hname (Nat.le_refl n) (by omega)).append ?_).append ?_
  · exact CallFree.callsLoaded (by simp [CallFree])
  · exact callsLoaded_transferCode rfl hfile hname htarget (by omega)

theorem callsLoaded_openCode {c : FileScope} {t name : Var} {mode : Option Var}
    (hname : given name) (hmode : ∀ v, mode = some v → given v) :
    CallsLoaded n given (openCode c t name n mode) := by
  cases mode with
  | some mode =>
      refine callsLoaded_callCode [_] (by simp [CallFree, intConst]) (by omega) rfl ?_
      intro v hv
      simp only [List.mem_cons, List.not_mem_nil, or_false] at hv
      rcases hv with rfl | rfl | rfl
      · exact Or.inr hname
      · exact Or.inr (hmode _ rfl)
      · exact Or.inl (by simp [definedNames, intConst, Stmt.target?])
  | none =>
      refine callsLoaded_callCode [_, _] (by simp [CallFree, intConst]) (by omega) rfl ?_
      intro v hv
      simp only [List.mem_cons, List.not_mem_nil, or_false] at hv
      rcases hv with rfl | rfl | rfl
      · exact Or.inr hname
      · exact Or.inl (by simp [definedNames, intConst, Stmt.target?])
      · exact Or.inl (by simp [definedNames, intConst, Stmt.target?])

theorem callsLoaded_createDatasetCode {c : FileScope} {t file name shape elem : Var} {rank : Nat}
    (hfile : given file) (hname : given name) (hshape : given shape) (helem : given elem) :
    CallsLoaded n given (createDatasetCode c t file name shape elem rank n) := by
  refine callsLoaded_callCode [_] (by simp [CallFree, intConst]) (by omega) rfl ?_
  intro v hv
  simp only [List.mem_cons, List.not_mem_nil, or_false] at hv
  rcases hv with rfl | rfl | rfl | rfl | rfl
  · exact Or.inr hfile
  · exact Or.inr hname
  · exact Or.inl (by simp [definedNames, intConst, Stmt.target?])
  · exact Or.inr hshape
  · exact Or.inr helem

end

/-! ### What is loaded stays -/

section

variable {row rest : List Stmt} {t callee table : Var} {args : List Var}
  {kws : List (String × Var)} {p : EntryPoint} {needed : Std.TreeSet String}

/-- A run that gets through the row has the entry point at hand. -/
theorem LoadsEntry.holdsEntry (h : LoadsEntry row callee table p) {σ : Type} {d : Device σ}
    {m n : Machine σ} (hrun : Exec.body d row m = .ok () n) :
    n.env[callee.name]? = some (.entry p) := by
  obtain ⟨r₁, r₂, r₃, rfl, -, hlast⟩ := h
  rw [← List.cons_append, ← List.append_assoc] at hrun
  refine Exec.holds_of_body hrun (fun env w hw => ?_) nofun hlast
  obtain ⟨base, -, hattr⟩ := exists_of_bind_ok hw
  exact Value.attr_entry (ok_of_mapError_ok hattr)

theorem LoadsEntry.filter (h : LoadsEntry row callee table p) (hcallee : callee.name ∈ needed)
    (htable : table.name ∈ needed) :
    LoadsEntry (row.filter (Stmt.isKept needed)) callee table p := by
  obtain ⟨r₁, r₂, r₃, rfl, hr₂, hr₃⟩ := h
  have hkept : ∀ (t : Var) value, t.name ∈ needed → (Stmt.assign t value).isKept needed :=
    fun t value ht => Function.isKept_iff.mpr (Or.inr ⟨t, rfl, ht⟩)
  refine ⟨r₁.filter (Stmt.isKept needed), r₂.filter (Stmt.isKept needed),
    r₃.filter (Stmt.isKept needed), ?_,
    fun hmem => hr₂ ((Function.definedNames_filter_sublist _ _).subset hmem),
    fun hmem => hr₃ ((Function.definedNames_filter_sublist _ _).subset hmem)⟩
  rw [List.filter_append, List.filter_cons_of_pos (hkept _ _ htable), List.filter_append,
    List.filter_cons_of_pos (hkept _ _ hcallee)]

/-- A call has an effect, so the names that it uses are needed, and the table with them. -/
theorem LoadsEntry.names_needed {e : Function} {l : Label} {b : Block} {before : List Stmt}
    (h : LoadsEntry row callee table p) (hb : e.block? l = some b)
    (hbody : b.body = before ++ row ++ .call t callee args kws :: rest) :
    callee.name ∈ e.neededNames ∧ table.name ∈ e.neededNames ∧
      ∀ v ∈ args, v.name ∈ e.neededNames := by
  have hblock := Function.mem_blocks_of_block? hb
  have hclosed := e.neededNames_closed
  have huses : ∀ v ∈ callee :: (args ++ kws.map Prod.snd), v.name ∈ e.neededNames :=
    hclosed.effect b hblock (.call t callee args kws) (by simp [hbody]) rfl
  have hcallee := huses callee (List.mem_cons_self ..)
  refine ⟨hcallee, ?_, fun v hv => huses v (by simp [hv])⟩
  obtain ⟨r₁, r₂, r₃, rfl, -, -⟩ := h
  exact hclosed.assign b hblock (.assign callee (.attr table p.name)) (by simp [hbody])
    callee rfl hcallee table (List.mem_singleton_self _)

theorem LoadsEntry.withoutDead {e : Function} {l : Label} {b : Block}
    (h : LoadsEntry row callee table p) (hb : e.block? l = some b)
    (hbody : b.body = row ++ .call t callee args kws :: rest) :
    (∀ v ∈ args, v.name ∈ e.neededNames) ∧
      LoadsEntry (row.filter (Stmt.isKept e.neededNames)) callee table p := by
  obtain ⟨hcallee, htable, hargs⟩ := LoadsEntry.names_needed h hb (by rwa [List.nil_append])
  exact ⟨hargs, h.filter hcallee htable⟩

end

/-! ### The variables that calls are given -/

/-- The variables that are known for a name can be given to a call. -/
structure Sourced (given : Var → Prop) (k : Known) : Prop where
  closes : ∀ file, k.closes = some file → given file
  makesDataset : ∀ file, k.makesDataset = some file → given file
  makesGroup : ∀ file, k.makesGroup = some file → given file
  dataset : ∀ d, k.dataset = some d → given d.file ∧ given d.name

def SourcedAll (given : Var → Prop) (facts : Facts) : Prop :=
  ∀ x, Sourced given (facts.about x)

section

variable {given : Var → Prop} {facts : Facts}

theorem sourcedAll_empty (given : Var → Prop) : SourcedAll given {} := by
  intro x
  rw [Facts.about_empty]
  exact ⟨nofun, nofun, nofun, nofun⟩

theorem SourcedAll.learn (h : SourcedAll given facts) {name : String} {add : Known → Known}
    (hadd : Sourced given (facts.about name) → Sourced given (add (facts.about name))) :
    SourcedAll given (facts.learn name add) := by
  intro x
  rw [Facts.about_learn]
  split
  · next hx =>
      subst hx
      exact hadd (h name)
  · exact h x

theorem SourcedAll.noteConst (h : SourcedAll given facts) (v : Var) (lit : Literal) :
    SourcedAll given (facts.noteConst v lit) := by
  cases lit with
  | str text => exact h.learn fun hk => { hk with }
  | _ => exact h

theorem SourcedAll.noteCopies (h : SourcedAll given facts) (body : List Stmt) :
    SourcedAll given (facts.noteCopies body) :=
  Facts.noteCopies_induct h fun _ _ _ _ hg => hg.learn fun hk => { hk with }

theorem SourcedAll.noteCopy (h : SourcedAll given facts) (t source : Var) :
    SourcedAll given (facts.noteCopy t source) := by
  refine h.learn fun hk => { hk with dataset := fun d hd => ?_ }
  cases hsource : (facts.about source.name).dataset with
  | none =>
      simp only [Known.inherit, hsource] at hd
      exact hk.dataset d hd
  | some d' =>
      simp only [Known.inherit, hsource] at hd
      cases hd
      exact (h source.name).dataset d hsource

variable {c : FileScope} {st st' : Expansion} {s : Stmt} {out : List Stmt}

theorem Expands.sourcedAll (h : Expands c st s out st')
    (hvars : ∀ v ∈ s.vars, given v)
    (hkey : ∀ k t base key, out = [.assign (temp c "dset_name" t.loc k) (.const (.str key)),
      .assign t (.constItem base (.str key) none)] → given (temp c "dset_name" t.loc k))
    (hst : SourcedAll given st.facts) : SourcedAll given st'.facts := by
  cases h with
  | frontEnd t => exact hst.learn fun hk => { hk with }
  | opener t base hb => exact hst.learn fun hk => { hk with }
  | method t base m hb hf =>
      have hbase : given base := hvars base (by simp [Stmt.vars, Stmt.uses, Expr.uses])
      refine hst.learn fun hk => ?_
      cases m with
      | close => exact { hk with closes := fun _ h => Option.some.inj h ▸ hbase }
      | createDataset => exact { hk with makesDataset := fun _ h => Option.some.inj h ▸ hbase }
      | createGroup => exact { hk with makesGroup := fun _ h => Option.some.inj h ▸ hbase }
  | datasetVar t base w index hf =>
      have hbase : given base := hvars base (by simp [Stmt.vars, Stmt.uses, Expr.uses])
      have hindex : given w := hvars w (by simp [Stmt.vars, Stmt.uses, Expr.uses])
      exact (hst.noteConst w index).learn fun hk =>
        { hk with dataset := fun _ h => Option.some.inj h ▸ ⟨hbase, hindex⟩ }
  | datasetKey t base key hf =>
      have hbase : given base := hvars base (by simp [Stmt.vars, Stmt.uses, Expr.uses])
      have hname := hkey st.nextTemp t base key rfl
      exact (hst.noteConst _ (.str key)).learn fun hk =>
        { hk with dataset := fun _ h => Option.some.inj h ▸ ⟨hbase, hname⟩ }
  | read t base index indexVar d type hf hd hi ht => exact hst
  | datasetItem t base index hf =>
      have hbase : given base := hvars base (by simp [Stmt.vars, Stmt.uses, Expr.uses])
      have hindex : given index := hvars index (by simp [Stmt.vars, Stmt.uses, Expr.uses])
      exact hst.learn fun hk =>
        { hk with dataset := fun _ h => Option.some.inj h ▸ ⟨hbase, hindex⟩ }
  | tuple t items => exact hst.learn fun hk => { hk with }
  | copy t source => exact hst.noteCopy t source
  | const t lit => exact hst.noteConst t lit
  | plain t value hp => exact hst
  | openFile t callee args kws name hc hn => exact hst.learn fun hk => { hk with }
  | closeFile t callee args kws file ho hc => exact hst
  | createDataset t callee args kws file name shape elem dims ho hx hc hn hs he hd =>
      have hname : given name :=
        hvars name (List.mem_append_right _ (List.mem_cons_of_mem _ (mem_of_argument hn)))
      exact hst.learn fun hk =>
        { hk with
          dataset := fun _ h =>
            Option.some.inj h ▸ ⟨(hst callee.name).makesDataset file hc, hname⟩ }
  | createGroup t callee args kws file name ho hx hy hc hn => exact hst.learn fun hk => { hk with }
  | call t callee args kws hc => exact hst
  | write t index value d rank hf hd hi hr => exact hst
  | store t index value hf hd => exact hst

/-- A call that stands for a statement is the statement itself, and then nothing is known that
its callee could be called for, or it is one that is put in. -/
theorem Expands.callsLoaded (h : Expands c st s out st')
    (hvars : ∀ v ∈ s.vars, given v) (hst : SourcedAll given st.facts) :
    (out = [s] ∧ ∀ t callee args kws, s = .call t callee args kws →
      NotRecognised (st.about callee)) ∨ CallsLoaded st.nextTemp given out := by
  cases h with
  | datasetKey t base key hf => exact Or.inr (CallFree.callsLoaded (by simp [CallFree]))
  | read t base index indexVar d type hf hd hi ht =>
      obtain ⟨hfile, hname⟩ := (hst base.name).dataset d hd
      exact Or.inr (callsLoaded_readCode hfile hname (hvars t (by simp [Stmt.vars, Stmt.target?])))
  | openFile t callee args kws name hc hn =>
      have harg : ∀ v ∈ args ++ kws.map Prod.snd, given v := fun v hv =>
        hvars v (List.mem_append_right _ (List.mem_cons_of_mem _ hv))
      exact Or.inr (callsLoaded_openCode (harg name (mem_of_argument hn)) fun v hv =>
        harg v (mem_of_argument hv))
  | closeFile t callee args kws file ho hc =>
      refine Or.inr (callsLoaded_callCode [] (by simp [CallFree]) (Nat.le_refl _) rfl
        fun v hv => ?_)
      obtain rfl := List.mem_singleton.mp hv
      exact Or.inr ((hst callee.name).closes v hc)
  | createDataset t callee args kws file name shape elem dims ho hx hc hn hs he hd =>
      have harg : ∀ v ∈ args ++ kws.map Prod.snd, given v := fun v hv =>
        hvars v (List.mem_append_right _ (List.mem_cons_of_mem _ hv))
      exact Or.inr (callsLoaded_createDatasetCode ((hst callee.name).makesDataset file hc)
        (harg name (mem_of_argument hn)) (harg shape (mem_of_argument hs))
        (harg elem (mem_of_keyword he)))
  | createGroup t callee args kws file name ho hx hy hc hn =>
      refine Or.inr (callsLoaded_callCode [] (by simp [CallFree]) (Nat.le_refl _) rfl
        fun v hv => ?_)
      simp only [List.mem_cons, List.not_mem_nil, or_false] at hv
      rcases hv with rfl | rfl
      · exact Or.inr ((hst callee.name).makesGroup v hc)
      · refine Or.inr (hvars v ?_)
        exact List.mem_append_right _ (List.mem_cons_of_mem _ (mem_of_argument hn))
  | write t index value d rank hf hd hi hr =>
      obtain ⟨hfile, hname⟩ := (hst t.name).dataset d hd
      exact Or.inr (callsLoaded_transferCode rfl hfile hname
        (hvars value (by simp [Stmt.vars, Stmt.uses])) (Nat.le_refl _))
  | call t callee args kws hc =>
      refine Or.inl ⟨rfl, fun t' callee' args' kws' heq => ?_⟩
      cases heq
      exact hc
  | _ =>
      refine Or.inl ⟨rfl, fun t callee args kws heq => ?_⟩
      cases heq

end

end Expand

end SpmdArrays
