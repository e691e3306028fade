import SpmdArrays.Proofs.FileCalls.CallSafety
import SpmdArrays.Proofs.FileCalls.Introspection
import SpmdArrays.Proofs.FileCalls.Places

/-!
The operands of whole reads and writes. A call that moves a dataset is given the variables
of the file and of the key that were noted when the dataset was named, and a row of
statements is put in front of it. These statements assign temporaries that nothing else
is called, so they leave the operands alone, with one exception: a read makes its buffer
in the variable that it assigns, and does so before the call. A variable that holds the
file or the key and is read into holds an array when the call is made, and the call
cannot be answered.
-/

namespace SpmdArrays

def Facts.transfer? (facts : Facts) : Stmt → Option (EntryPoint × DatasetRef)
  | .assign _ (.constItem base index _) =>
    let k := facts.about base.name
    if k.file.isNone ∧ index.isFullSlice then k.dataset.map (.read, ·) else none
  | .store t index _ =>
    let k := facts.about t.name
    if k.file.isNone ∧ index.isFullSlice then k.dataset.map (.write, ·) else none
  | _ => none

/-! ### Statements that change what they assign, and nothing else -/

/-- An assignment, or a call with too few arguments for one that hands back a buffer. -/
inductive Stmt.Brief : Stmt → Prop
  | assign (t : Var) (value : Expr) : Brief (.assign t value)
  | call (t callee : Var) {args : List Var} (kws : List (String × Var)) (h : args.length < 7) :
      Brief (.call t callee args kws)

namespace Exec

variable {σ : Type} {d : Device σ} {m n : Machine σ} {x : String}

theorem dest_eq_none {env : Env} {callee : Var} {args : List Var} {kws : List (String × Var)}
    {p : Prepared} (hp : env.request callee args kws = .ok p) (h : args.length < 7) :
    p.dest = none := by
  obtain ⟨values, -, hvalues, hprepares⟩ := Env.request_ok hp
  have hlen : values.length = args.length := length_of_mapM_ok hvalues
  generalize p.request.entry = e at hprepares
  cases hprepares with
  | read t rank start count stride a =>
      simp only [List.length_cons, List.length_nil] at hlen
      omega
  | _ => rfl

theorem Runs.getElem?_of_brief {u : Stmt} (hrun : Runs d m u n) (hu : u.Brief)
    (hx : ¬ u.Assigns x) : n.env[x]? = m.env[x]? := by
  cases hrun with
  | assign t hv => exact Env.getElem?_insert_of_ne _ (fun heq => hx (congrArg some heq)) _
  | @call t callee args kws p reply s hp ha hs =>
      cases hu with
      | call _ _ _ hlen =>
          rw [afterCall, dest_eq_none hp hlen]
          exact Env.getElem?_insert_of_ne _ (fun heq => hx (congrArg some heq)) _
  | store t hv => cases hu

theorem getElem?_of_final_brief {ss : List Stmt} (hss : ∀ u ∈ ss, u.Brief)
    (hx : x ∉ definedNames ss) : (final (body d ss m)).env[x]? = m.env[x]? := by
  induction ss generalizing m with
  | nil => rfl
  | cons u ss ih =>
      rw [definedNames_cons, List.mem_append, not_or] at hx
      have hux : ¬ u.Assigns x := fun h => hx.1 (Option.mem_toList.mpr h)
      have hrest := fun w hw => hss w (List.mem_cons_of_mem u hw)
      rw [body_cons_apply]
      cases hu : stmt d u m with
      | error e k => rw [final, env_of_stmt_error hu]
      | ok _ k =>
          exact (ih hrest hx.2).trans
            ((runs_of_stmt hu).getElem?_of_brief (hss u (List.mem_cons_self ..)) hux)

theorem getElem?_of_body_brief {ss : List Stmt} (hss : ∀ u ∈ ss, u.Brief)
    (hx : x ∉ definedNames ss) (hrun : body d ss m = .ok () n) : n.env[x]? = m.env[x]? := by
  have hfinal := getElem?_of_final_brief (d := d) (m := m) hss hx
  rwa [hrun] at hfinal

end Exec

namespace Expand

/-! ### What is put in front of a transfer -/

/-- The row in front of the call that moves a dataset, for a statement that is looked at
when temporaries have numbers from `n` on. -/
structure Approach (n : Nat) (s : Stmt) (p : EntryPoint) (d : DatasetRef) (row : List Stmt)
    (callee table : Var) (args : List Var) : Prop where
  loads : LoadsEntry row callee table p
  operands : args.take 2 = [d.file, d.name]
  brief : ∀ u ∈ row, u.Brief
  assigned : ∀ x ∈ definedNames row, GeneratedFrom n x ∨ s.Assigns x
  /-- What the statement assigns is an argument, and a buffer is made there. -/
  buffer : ∀ t, s.target? = some t → t ∈ args ∧
    (¬ GeneratedFrom n t.name → ∃ type, Allocates row t.name type)

variable {c : FileScope} {d : DatasetRef} {n k : Nat}

def Aside (n : Nat) (row : List Stmt) : Prop :=
  ∀ u ∈ row, u.Brief ∧ ∀ x, u.Assigns x → GeneratedFrom n x

theorem Aside.assigned {row : List Stmt} (h : Aside n row) :
    ∀ x ∈ definedNames row, GeneratedFrom n x := by
  intro x hx
  obtain ⟨u, hu, hux⟩ := exists_of_mem_definedNames hx
  exact (h u hu).2 x hux

theorem aside_append {a b : List Stmt} (ha : Aside n a) (hb : Aside n b) : Aside n (a ++ b) :=
  fun u hu => (List.mem_append.mp hu).elim (ha u) (hb u)

theorem aside_assign {stem : String} {loc : Loc} {value : Expr} {row : List Stmt} (hle : n ≤ k)
    (hrow : Aside n row) : Aside n (.assign (temp c stem loc k) value :: row) := by
  refine List.forall_mem_cons.mpr ⟨⟨.assign .., fun x hx => ?_⟩, hrow⟩
  cases hx
  exact generatedFrom_temp _ _ _ hle

theorem aside_nil (n : Nat) : Aside n [] := fun _ hu => absurd hu List.not_mem_nil

theorem aside_loadCode {e : EntryPoint} {loc : Loc} (hle : n ≤ k) :
    Aside n (loadCode c e loc k) :=
  aside_assign hle (aside_assign (by omega) (aside_nil n))

theorem aside_extentCode {sizeEntry : Var} {loc : Loc} {dims : List Nat} (hle : n ≤ k) :
    Aside n (extentCode c sizeEntry d loc dims k) := by
  induction dims generalizing k with
  | nil => exact aside_nil n
  | cons dim dims ih =>
      have hcall : (Stmt.call (temp c "h5_size" loc (k + 1)) sizeEntry
          [d.file, d.name, temp c "h5_dim" loc k] []).Brief := .call _ _ _ (by simp)
      refine aside_assign hle (List.forall_mem_cons.mpr ⟨⟨hcall, fun x hx => ?_⟩, ih (by omega)⟩)
      cases hx
      exact generatedFrom_temp _ _ _ (by omega)

theorem aside_slabCode {e : EntryPoint} {loc : Loc} {rank zero starts counts : Expr}
    (hle : n ≤ k) :
    Aside n ([.assign (temp c "h5_ndims" loc k) rank,
      .assign (temp c "const_zero" loc (k + 1)) zero,
      .assign (temp c "h5_starts" loc (k + 2)) starts,
      .assign (temp c "h5_counts" loc (k + 3)) counts] ++ loadCode c e loc (k + 5)) :=
  aside_append (aside_assign hle (aside_assign (by omega) (aside_assign (by omega)
    (aside_assign (by omega) (aside_nil n))))) (aside_loadCode (by omega))

theorem allocates_fillCode {t : Var} {type : ArrayType} (ht : ¬ GeneratedFrom n t.name) :
    Allocates (fillCode c t d type n) t.name type := by
  refine ⟨sizeCode c t d type.rank n, t, _, _, rfl, rfl, ?_, fun u hu hux => ?_⟩
  · rw [length_extentVars, List.length_range]
  · exact ht (((of_mem_readyCode hu).2 _ hux).mono (by omega))

theorem aside_sizeCode {t : Var} {rank : Nat} : Aside n (sizeCode c t d rank n) :=
  aside_append (aside_loadCode (Nat.le_refl n)) (aside_extentCode (by omega))

theorem aside_readyCode {t : Var} {rank : Nat} {vars : List Var} :
    Aside n (readyCode c t rank vars (n + 2 + 2 * rank)) :=
  aside_slabCode (by omega)

theorem brief_fillCode {t : Var} {type : ArrayType} : ∀ u ∈ fillCode c t d type n, u.Brief := by
  intro u hu
  rcases List.mem_append.mp hu with hu | hu
  · exact (aside_sizeCode u hu).1
  · rcases List.mem_cons.mp hu with rfl | hu
    · exact .assign ..
    · exact (aside_readyCode u hu).1

theorem loadsEntry_fillCode (t : Var) (type : ArrayType) :
    LoadsEntry (fillCode c t d type n) (entryVar c .read t.loc (n + 2 + 2 * type.rank + 5))
      (temp c "io_abi" t.loc (n + 2 + 2 * type.rank + 5)) .read :=
  (loadsEntry_loadCode c .read t.loc _ [_, _, _, _, _]).append_row _

theorem approach_readCode (t base : Var) (index : Literal) (indexVar : Option Var)
    (type : ArrayType) :
    ∃ row status callee table args,
      readCode c t d type n = row ++ [.call status callee args []] ∧
      Approach n (.assign t (.constItem base index indexVar)) .read d row callee table args := by
  refine ⟨_, _, _, temp c "io_abi" t.loc (n + 2 + 2 * type.rank + 5), _, readCode_eq .., ?_⟩
  refine ⟨loadsEntry_fillCode .., rfl, brief_fillCode, ?_, ?_⟩
  · intro x hx
    rw [fillCode, definedNames_append, definedNames_cons] at hx
    rcases List.mem_append.mp hx with hx | hx
    · exact Or.inl (aside_sizeCode.assigned x hx)
    · rcases List.mem_append.mp hx with hx | hx
      · exact Or.inr (Option.mem_toList.mp hx)
      · exact Or.inl (aside_readyCode.assigned x hx)
  · intro t' ht'
    cases ht'
    exact ⟨by simp, fun ht => ⟨type, allocates_fillCode ht⟩⟩

theorem approach_writeCode (t value : Var) (index : Literal) (rank : Nat) (counts : Expr)
    (loc : Loc) :
    ∃ row status callee table args,
      transferCode c .write d rank counts value loc n = row ++ [.call status callee args []] ∧
      Approach n (.store t index value) .write d row callee table args := by
  have hrow : Aside n ([intConst (temp c "h5_ndims" loc n) rank,
      intConst (temp c "const_zero" loc (n + 1)) 0,
      .assign (temp c "h5_starts" loc (n + 2))
        (.tuple (List.replicate rank (temp c "const_zero" loc (n + 1)))),
      .assign (temp c "h5_counts" loc (n + 3)) counts] ++ loadCode c .write loc (n + 5)) :=
    aside_slabCode (Nat.le_refl n)
  refine ⟨_, _, _, _, _, rfl, loadsEntry_loadCode c .write loc (n + 5) _, rfl,
    fun u hu => (hrow u hu).1, fun x hx => Or.inl (hrow.assigned x hx), fun t' ht' => ?_⟩
  -- a write assigns nothing
  cases ht'

variable {st st' : Expansion} {s : Stmt} {out : List Stmt} {p : EntryPoint}

/-- A statement that moves a dataset becomes a row and a call that does. -/
theorem Expands.approach (h : Expands c st s out st') (hs : st.facts.transfer? s = some (p, d)) :
    (∃ x, (st.facts.about x).dataset = some d) ∧ ∃ row status callee table args,
      out = row ++ [.call status callee args []] ∧
      Approach st.nextTemp s p d row callee table args := by
  cases h with
  | read t base index indexVar d' type hf hd hi ht =>
      simp only [Expansion.about] at hf hd
      simp only [Facts.transfer?, hf, hd, hi] at hs
      cases hs
      exact ⟨⟨base.name, hd⟩, approach_readCode ..⟩
  | write t index value d' rank hf hd hi hr =>
      simp only [Expansion.about] at hf hd
      simp only [Facts.transfer?, hf, hd, hi] at hs
      cases hs
      exact ⟨⟨t.name, hd⟩, approach_writeCode ..⟩
  | datasetVar t base v index hf =>
      obtain ⟨origin, hf⟩ := Option.isSome_iff_exists.mp hf
      simp only [Expansion.about] at hf
      simp [Facts.transfer?, hf] at hs
  | datasetKey t base key hf =>
      obtain ⟨origin, hf⟩ := Option.isSome_iff_exists.mp hf
      simp only [Expansion.about] at hf
      simp [Facts.transfer?, hf] at hs
  | plain t value hp =>
      cases hp with
      | constItem hf hd =>
          simp only [Expansion.about] at hd
          simp [Facts.transfer?, hd] at hs
      | _ => cases hs
  | store t index value hf hd =>
      simp only [Expansion.about] at hd
      simp [Facts.transfer?, hd] at hs
  | _ => cases hs

variable {row ss : List Stmt} {status callee table : Var} {args : List Var}

/-- A variable is kept by the row, or by what is left of it, unless it is a temporary or
the buffer is made there. -/
theorem Approach.getElem?_of_body (h : Approach n s p d row callee table args)
    (hss : ss.Sublist row)
    (halloc : ∀ v ∈ args, ∀ type, Allocates row v.name type → Allocates ss v.name type) {σ : Type}
    {dev : Device σ} {m m' : Machine σ} (hrun : Exec.body dev ss m = .ok () m') {x : String}
    (hx : ¬ GeneratedFrom n x) :
    (¬ s.Assigns x → m'.env[x]? = m.env[x]?) ∧
      (s.Assigns x → ∃ a, m'.env[x]? = some (.array a)) := by
  constructor
  · intro hs
    refine Exec.getElem?_of_body_brief (fun u hu => h.brief u (hss.subset hu)) ?_ hrun
    intro hmem
    obtain ⟨u, hu, hux⟩ := exists_of_mem_definedNames hmem
    exact (h.assigned x (mem_definedNames (hss.subset hu) hux)).elim hx hs
  · intro hs
    obtain ⟨t, ht, rfl⟩ := Option.map_eq_some_iff.mp hs
    obtain ⟨harg, hrow⟩ := h.buffer t ht
    obtain ⟨type, hrow⟩ := hrow hx
    obtain ⟨a, ha, -⟩ := (halloc t harg type hrow).holdsArray hrun
    exact ⟨a, ha⟩

/-- The call needs what it is given, so the buffer is still made when dead statements are
gone. -/
theorem Approach.withoutDead {e : Function} {l : Label} {b : Block} {before after : List Stmt}
    (h : Approach n s p d row callee table args)
    (he : e.block? l =
      some { b with body := before ++ row ++ .call status callee args [] :: after }) :
    ∃ before kept after, kept.Sublist row ∧
      e.withoutDead.block? l =
        some { b with body := before ++ kept ++ .call status callee args [] :: after } ∧
      LoadsEntry (before ++ kept) callee table p ∧
      ∀ v ∈ args, ∀ type, Allocates row v.name type → Allocates kept v.name type := by
  have hcall : (Stmt.call status callee args []).isKept e.neededNames :=
    Function.isKept_iff.mpr (Or.inl rfl)
  obtain ⟨hargs, hloads⟩ := (h.loads.append_row before).withoutDead he rfl
  refine ⟨before.filter (Stmt.isKept e.neededNames), row.filter (Stmt.isKept e.neededNames),
    after.filter (Stmt.isKept e.neededNames), List.filter_sublist, ?_, ?_,
    fun v hv type halloc => halloc.filter fun u _ hu => ?_⟩
  · rw [Function.block?_withoutDead, he, Option.map_some, Block.withoutDead, List.filter_append,
      List.filter_append, List.filter_cons_of_pos hcall]
  · rwa [List.filter_append] at hloads
  · obtain ⟨w, hw, hwv⟩ := Option.map_eq_some_iff.mp hu
    exact Function.isKept_iff.mpr (Or.inr ⟨w, hw, hwv ▸ hargs v hv⟩)

/-! ### Operands that are noted are no temporaries to come -/

theorem SourcedAll.mono {given given' : Var → Prop} {facts : Facts} (h : SourcedAll given facts)
    (hg : ∀ v, given v → given' v) : SourcedAll given' facts := fun x =>
  { closes := fun file hfile => hg _ ((h x).closes file hfile)
    makesDataset := fun file hfile => hg _ ((h x).makesDataset file hfile)
    makesGroup := fun file hfile => hg _ ((h x).makesGroup file hfile)
    dataset := fun d hd => ((h x).dataset d hd).imp (hg _) (hg _) }

/-- The variables that are noted are none of the temporaries from the counter on, if the
names of the function are none. -/
def Settles (f : Function) (st : Expansion) : Prop :=
  f.nextTemp ≤ st.nextTemp ∧
    (f.NamesApart → SourcedAll (fun v => ¬ GeneratedFrom st.nextTemp v.name) st.facts)

theorem Settles.expands {f : Function} (hs : s ∈ f.stmts) (h : Expands c st s out st')
    (hst : Settles f st) : Settles f st' := by
  have hle : st.nextTemp ≤ st'.nextTemp := h.nextTemp_le
  refine ⟨Nat.le_trans hst.1 hle, fun hnames => h.sourcedAll (fun v hv hv' => ?_) ?_
    ((hst.2 hnames).mono fun v hv hv' => hv (hv'.mono hle))⟩
  · exact hnames.vars hs hv (hv'.mono (Nat.le_trans hst.1 hle))
  · rintro k t base key rfl
    have htarget : ∀ x ∈ s.target?.map Var.name, ¬ GeneratedFrom st.nextTemp x := fun x hx hx' =>
      hnames.defined x (mem_definedNames hs hx) (hx'.mono hst.1)
    exact (h.withTemps htarget).below _ (by simp [definedNames, Stmt.target?])

end Expand

namespace Function

open Expand

variable {f g : Function} {catalog : Option Inspector} {l : Label} {b : Block}
  {front rest : List Stmt} {s : Stmt} {p : EntryPoint} {d : DatasetRef}

/-- Whole reads and writes keep their operands, with one exception. Where a statement of a
block moves a dataset, a row of statements is put in for it and then a call of the entry
point with the variables of the file and of the key as its first arguments, and the block
keeps the call and what did not become dead of the row. Whenever the row is run, in full or
what is kept of it, on whatever device and from whatever machine, each of the two holds what
it held before, unless the statement itself assigns it, that is, unless a read goes to the
variable of the file or of the key: then it holds an array when the call is made. All this
is said of variables that are no temporaries still to be handed out, and where names are
apart the two never are. -/
theorem transfers_keep_operands (h : f.expandFiles catalog = .ok g) (hb : f.block? l = some b)
    (hbody : b.body = front ++ s :: rest)
    (hs : (f.factsAt catalog l front).transfer? s = some (p, d)) :
    ∃ st st' row status callee table args before kept after,
      f.factsAt catalog l front = st.facts ∧
      Expand.stmt (f.fileScope catalog) s st = .ok (row ++ [.call status callee args []], st') ∧
      kept.Sublist row ∧
      g.block? l = some { b with body := before ++ kept ++ .call status callee args [] :: after } ∧
      LoadsEntry (before ++ kept) callee table p ∧ args.take 2 = [d.file, d.name] ∧
      (f.NamesApart → ∀ v ∈ [d.file, d.name], ¬ GeneratedFrom st.nextTemp v.name) ∧
      ∀ ss ∈ [row, kept], ∀ (σ : Type) (dev : Device σ) (m n : Machine σ),
        Exec.body dev ss m = .ok () n →
        ∀ v ∈ [d.file, d.name], ¬ GeneratedFrom st.nextTemp v.name →
          (¬ s.Assigns v.name → n.env[v.name]? = m.env[v.name]?) ∧
          (s.Assigns v.name → ∃ a, n.env[v.name]? = some (.array a)) := by
  obtain ⟨e, rfl, -, -, hblocks⟩ := exists_expandsAt (I := Settles f) h
    ⟨Nat.le_refl _, fun _ => sourcedAll_empty _⟩
    (fun st body hst => ⟨hst.1, fun hnames => (hst.2 hnames).noteCopies body⟩)
    fun u hu st out st' hexp hst => hst.expands hu hexp
  obtain ⟨rows, hrows, he⟩ := hblocks l b hb
  rw [hbody] at hrows
  obtain ⟨before, out, after, st, st', rfl, hfacts, hst, hstmt⟩ := hrows.exists_at
  rw [List.nil_append] at hfacts
  rw [hfacts] at hs
  obtain ⟨⟨x, hx⟩, row, status, callee, table, args, rfl, hrow⟩ :=
    (expands_of_stmt hstmt).approach hs
  have hcut : (before ++ (row ++ [.call status callee args []]) :: after).flatten =
      before.flatten ++ row ++ .call status callee args [] :: after.flatten := by simp
  rw [hcut] at he
  obtain ⟨before, kept, after, hkept, hg, hloads, halloc⟩ := hrow.withoutDead he
  refine ⟨st, st', row, status, callee, table, args, before, kept, after, hfacts, hstmt, hkept, hg,
    hloads, hrow.operands, fun hnames => ?_, fun ss hss σ dev m n hrun v _ hv => ?_⟩
  · simpa using (hst.2 hnames x).dataset d hx
  · rcases List.mem_pair.mp hss with rfl | rfl
    · exact hrow.getElem?_of_body (List.Sublist.refl _) (fun _ _ _ h => h) hrun hv
    · exact hrow.getElem?_of_body hkept halloc hrun hv

/-! ### A handle that is read into -/

/-- Reads a dataset into the variable that holds the handle of its file. -/
def readIntoHandleBlock : Block where
  body := [
    .assign ⟨0, "m", ⟨1, 1⟩⟩ (.global .h5py),
    .assign ⟨0, "open", ⟨2, 1⟩⟩ (.attr ⟨0, "m", ⟨2, 1⟩⟩ "File"),
    .assign ⟨0, "n", ⟨3, 1⟩⟩ (.const (.str "a.h5")),
    .call ⟨0, "f", ⟨4, 1⟩⟩ ⟨0, "open", ⟨4, 1⟩⟩ [⟨0, "n", ⟨4, 1⟩⟩] [],
    .assign ⟨0, "e", ⟨5, 1⟩⟩ (.constItem ⟨0, "f", ⟨5, 1⟩⟩ (.str "d") none),
    .assign ⟨0, "f", ⟨6, 1⟩⟩ (.constItem ⟨0, "e", ⟨6, 1⟩⟩ (.slice .full) none)]
  term := .ret (some ⟨0, "f", ⟨7, 1⟩⟩)

def readIntoHandle : Function where
  name := "main"
  blocks := #[readIntoHandleBlock]

def readIntoHandleCatalog : Catalog := BySource.empty.insert "a.h5" "d" ⟨.float64, [2]⟩

theorem readIntoHandle_namesApart : readIntoHandle.NamesApart where
  unused := tempsUnused_of_not_isTemp (by decide +kernel)
  params x hx := absurd hx List.not_mem_nil

/-- The function with what is put in for its statements; of these, only the ones of the
front end do not stay. -/
def readIntoHandleRows : List (List Stmt) :=
  let c := readIntoHandle.fileScope (some readIntoHandleCatalog.inspect)
  let d : DatasetRef := ⟨⟨0, "f", ⟨5, 1⟩⟩, temp c "dset_name" ⟨5, 1⟩ 4⟩
  [readIntoHandleBlock.body.take 2,
    .assign ⟨0, "n", ⟨3, 1⟩⟩ (.const (.str "a.h5")) ::
      openCode c ⟨0, "f", ⟨4, 1⟩⟩ ⟨0, "n", ⟨4, 1⟩⟩ 0 none ++ [.assign d.name (.const (.str "d"))],
    [.assign ⟨0, "e", ⟨5, 1⟩⟩ (.constItem ⟨0, "f", ⟨5, 1⟩⟩ (.str "d") none)],
    readCode c ⟨0, "f", ⟨6, 1⟩⟩ d ⟨.float64, 1⟩ 5]

theorem exists_expandFiles_readIntoHandle :
    ∃ g, readIntoHandle.expandFiles (some readIntoHandleCatalog.inspect) = .ok g ∧
      g.blocks = #[{ readIntoHandleBlock with
        body := (readIntoHandleRows.eraseIdx 2).tail.flatten }] ∧ g.params = [] ∧ g.entry = 0 :=
  exists_expandFiles_blocks 10 #[{ readIntoHandleBlock with body := readIntoHandleRows.flatten }]
    (order_eq_singleton rfl) (by decide +kernel) (by decide +kernel)

/-- The key is kept; the handle is gone when the dataset is asked for. -/
theorem readIntoHandle_operands :
    readIntoHandle.NamesApart ∧ ∃ g status callee args before kept after,
      readIntoHandle.expandFiles (some readIntoHandleCatalog.inspect) = .ok g ∧
      g.block? 0 = some { readIntoHandleBlock with
        body := before ++ kept ++ .call status callee args [] :: after } ∧
      (args.take 2).map Var.name = ["f", "$dset_name.4"] ∧
      ∀ (σ : Type) (dev : Device σ) (m n : Machine σ), Exec.body dev kept m = .ok () n →
        n.env["$dset_name.4"]? = m.env["$dset_name.4"]? ∧ ∃ a, n.env["f"]? = some (.array a) := by
  refine ⟨readIntoHandle_namesApart, ?_⟩
  obtain ⟨g, hg, -⟩ := exists_expandFiles_readIntoHandle
  have hcut : readIntoHandleBlock.body = readIntoHandleBlock.body.take 5 ++
      [.assign ⟨0, "f", ⟨6, 1⟩⟩ (.constItem ⟨0, "e", ⟨6, 1⟩⟩ (.slice .full) none)] := rfl
  let d : DatasetRef := ⟨⟨0, "f", ⟨5, 1⟩⟩, ⟨0, "$dset_name.4", ⟨5, 1⟩⟩⟩
  have hs : (readIntoHandle.factsAt (some readIntoHandleCatalog.inspect) 0
      (readIntoHandleBlock.body.take 5)).transfer?
        (.assign ⟨0, "f", ⟨6, 1⟩⟩ (.constItem ⟨0, "e", ⟨6, 1⟩⟩ (.slice .full) none)) =
      some (.read, d) := by
    have horder : readIntoHandle.order = [0] := order_eq_singleton rfl
    rw [factsAt, horder]
    decide +kernel
  obtain ⟨st, st', row, status, callee, table, args, before, kept, after, -, -, -, hbody, -, hargs,
    hapart, hrun⟩ := transfers_keep_operands hg rfl hcut hs
  have hapart := hapart readIntoHandle_namesApart
  refine ⟨g, status, callee, args, before, kept, after, hg, hbody, by rw [hargs]; rfl, ?_⟩
  intro σ dev m n hkept
  have hrun := hrun kept (by simp) σ dev m n hkept
  have hfile := hrun d.file (by simp [d]) (hapart d.file (by simp [d]))
  have hname := hrun d.name (by simp [d]) (hapart d.name (by simp [d]))
  exact ⟨hname.1 (by simp [Stmt.Assigns, Stmt.target?, d]), hfile.2 rfl⟩

theorem run_of_body_error {σ : Type} {dev : Device σ} {args : List Value} {t : σ}
    {err : Stop RunError} {m : Machine σ} (hb : f.block? f.entry = some b)
    (h : Exec.body dev b.body (f.begin args t) = .error err m) :
    f.run dev args t = (.error err, m.device) := by
  rw [run_eq_outcome, stepLimit, Exec.blocks_succ_apply, hb]
  simp only [h]
  rfl

def arrayForHandle? : EStateM.Result (Stop RunError) (Machine Store) Unit → Option ArrayValue
  | .error (.failed (.typeError (.notHandle (.array a)))) _ => some a
  | _ => none

theorem exists_of_arrayForHandle? {r : EStateM.Result (Stop RunError) (Machine Store) Unit}
    {a : ArrayValue} (h : arrayForHandle? r = some a) :
    ∃ m, r = .error (.failed (.typeError (.notHandle (.array a)))) m := by
  unfold arrayForHandle? at h
  split at h
  · cases h
    exact ⟨_, rfl⟩
  · cases h

/-- The file is open and the dataset is there, but the read is never asked for. -/
theorem readIntoHandle_stops :
    ∃ g, readIntoHandle.expandFiles (some readIntoHandleCatalog.inspect) = .ok g ∧
      (g.run Store.device [] (.ofCatalog readIntoHandleCatalog)).1 =
        .error (.failed (.typeError (.notHandle (.array ⟨.float64, [2], #[0, 0]⟩)))) := by
  obtain ⟨g, hg, hblocks, hparams, hentry⟩ := exists_expandFiles_readIntoHandle
  have hb : g.block? g.entry = some { readIntoHandleBlock with
      body := (readIntoHandleRows.eraseIdx 2).tail.flatten } := by
    rw [block?, hblocks, hentry]
    rfl
  obtain ⟨m, hm⟩ := exists_of_arrayForHandle? (a := ⟨.float64, [2], #[0, 0]⟩)
    (r := Exec.body Store.device (readIntoHandleRows.eraseIdx 2).tail.flatten
      ⟨Env.ofArgs [] [], .ofCatalog readIntoHandleCatalog⟩) (by decide +kernel)
  refine ⟨g, hg, ?_⟩
  rw [run_of_body_error hb (by rw [begin, hparams]; exact hm)]

end Function

end SpmdArrays
