import SpmdArrays.Proofs.Exec.Definers
import SpmdArrays.Proofs.FileCalls.DeadCode

/-!
The type under which a dataset is read is looked up before the program runs, by
the texts that its variables are known to hold. Where the names through which
files and datasets are found are each assigned by one statement only, these are
the texts that they do hold when the program runs, on whatever path it comes to
the read; so the dataset that is read is the one that was looked up. Where such a
name is assigned twice this can fail.
-/

namespace SpmdArrays

namespace Function

/-- The name is assigned an attribute under which files are opened. -/
def TakesFile (f : Function) (x : String) : Prop :=
  ∃ t base, .assign t (.attr base "File") ∈ f.stmts ∧ t.name = x

/-- Names that can come to hold a handle: what opening calls assign, and copies of it. -/
inductive Handles (f : Function) : String → Prop
  | opened {t callee : Var} {args : List Var} {kws : List (String × Var)}
      (h : .call t callee args kws ∈ f.stmts) (hc : f.TakesFile callee.name) : Handles f t.name
  | copied {t source : Var} (h : .assign t (.copy source) ∈ f.stmts)
      (hs : Handles f source.name) : Handles f t.name

/-- Names whose texts say what is opened, how it is opened and which dataset of it
is meant, and the names that these are copied from. -/
inductive Keys (f : Function) : String → Prop
  | arg {t callee v : Var} {args : List Var} {kws : List (String × Var)}
      (h : .call t callee args kws ∈ f.stmts) (hc : f.TakesFile callee.name)
      (hv : v ∈ args ++ kws.map Prod.snd) : Keys f v.name
  | item {t base index : Var} (h : .assign t (.item base index) ∈ f.stmts)
      (hb : f.Handles base.name) : Keys f index.name
  | constItem {t base v : Var} {index : Literal}
      (h : .assign t (.constItem base index (some v)) ∈ f.stmts) (hb : f.Handles base.name) :
      Keys f v.name
  | copied {t source : Var} (h : .assign t (.copy source) ∈ f.stmts) (ht : Keys f t.name) :
      Keys f source.name

/-- Names that can come to stand for a dataset. -/
inductive Datasets (f : Function) : String → Prop
  | item {t base index : Var} (h : .assign t (.item base index) ∈ f.stmts)
      (hb : f.Handles base.name) : Datasets f t.name
  | constItem {t base : Var} {index : Literal} {indexVar : Option Var}
      (h : .assign t (.constItem base index indexVar) ∈ f.stmts) (hb : f.Handles base.name) :
      Datasets f t.name
  | copied {t source : Var} (h : .assign t (.copy source) ∈ f.stmts)
      (hs : Datasets f source.name) : Datasets f t.name

/-- The names through which files and datasets are found are settled. Nothing is
asked of any other name, be it the target of a read or what a branch looks at. -/
structure AccessSettled (f : Function) : Prop where
  handle : ∀ x, f.Handles x → f.Settled x
  key : ∀ x, f.Keys x → f.Settled x

/-- Nothing but the opening of files is called through the names of the function: a callee
holds no entry point, and so it is no `close` or `create_dataset` either. Files are opened for
reading, keys that have a variable are the text that it holds, and neither the target of a read
nor what it is copied into is declared. -/
structure OpensForReading (f : Function) : Prop where
  callee : ∀ t callee args kws, .call t callee args kws ∈ f.stmts → HoldsNoEntry f callee.name
  mode : ∀ t callee args kws mode, .call t callee args kws ∈ f.stmts → f.TakesFile callee.name →
    (args[1]? <|> kws.lookup "mode") = some mode → HoldsText f mode.name "r"
  key : ∀ t base key v, .assign t (.constItem base (.str key) (some v)) ∈ f.stmts →
    f.Handles base.name → HoldsText f v.name key
  undeclared : ∀ t base index indexVar, .assign t (.constItem base index indexVar) ∈ f.stmts →
    index.isFullSlice = true → f.Datasets base.name → f.locals[t.name]? = none ∧
      ∀ u source, .assign u (.copy source) ∈ f.stmts → source.name = t.name →
        f.locals[u.name]? = none

/-- The second function has the assignments of the first that no expansion
replaces, and calls into the same targets. Settled names stay settled in it, and
temporaries are settled. -/
structure Carries (f e : Function) : Prop where
  made : ∀ t value, .assign t value ∈ f.stmts → value.isNoEntry = true → .assign t value ∈ e.stmts
  copy : ∀ t source, .assign t (.copy source) ∈ f.stmts → .assign t (.copy source) ∈ e.stmts
  call : ∀ t callee args kws, .call t callee args kws ∈ f.stmts →
    ∃ callee' args' kws', .call t callee' args' kws' ∈ e.stmts
  settled : ∀ x, f.Settled x → e.Settled x
  temp : ∀ x, GeneratedFrom f.nextTemp x → e.Settled x

theorem Carries.holdsText {f e : Function} (h : f.Carries e) {x text : String}
    (ht : HoldsText f x text) : HoldsText e x text := by
  induction ht with
  | const hc hx hset => exact .const (h.made _ _ hc rfl) hx (h.settled _ hset)
  | copy hc hx hset _ ih => exact .copy (h.copy _ _ hc) hx (h.settled _ hset) ih

theorem Carries.holdsNoEntry {f e : Function} (h : f.Carries e) {x : String}
    (hx : HoldsNoEntry f x) : HoldsNoEntry e x := by
  induction hx with
  | made hm hx hset hvalue => exact .made (h.made _ _ hm hvalue) hx (h.settled _ hset) hvalue
  | returned hc hx hset =>
      obtain ⟨callee', args', kws', hc'⟩ := h.call _ _ _ _ hc
      exact .returned hc' hx (h.settled _ hset)
  | copy hc hx hset _ ih => exact .copy (h.copy _ _ hc) hx (h.settled _ hset) ih

end Function

namespace Expand

/-! ### What is known is told by statements -/

def TakesMethod (e : Function) (x : String) (m : Method) : Prop :=
  ∃ t base, .assign t (.attr base m.name) ∈ e.stmts ∧ t.name = x

/-- Keys of the function, and temporaries that hold a key. -/
def KeyOrTemp (f : Function) (x : String) : Prop := f.Keys x ∨ GeneratedFrom f.nextTemp x

/-- What is known about a name of the first function is told by statements that
are there: copies by those of the function, all else by those that stand for
them. -/
structure Told (f e : Function) (x : String) (k : Known) : Prop where
  text : ∀ text, k.str = some text → KeyOrTemp f x → HoldsText e x text
  file : ∀ origin, k.file = some origin →
    f.Handles x ∧ ∃ name, origin = .named name ∧ f.Keys name.name ∧ HoldsFile e x name
  dataset : ∀ d, k.dataset = some d → f.Datasets x ∧ KeyOrTemp f d.name.name
  opener : k.opensFiles = true → f.TakesFile x
  closes : ∀ file, k.closes = some file → TakesMethod e x .close
  makesDataset : ∀ file, k.makesDataset = some file → TakesMethod e x .createDataset
  makesGroup : ∀ file, k.makesGroup = some file → TakesMethod e x .createGroup
  copiedTo : ∀ y, k.copiedTo = some y →
    ∃ t source, .assign t (.copy source) ∈ f.stmts ∧ source.name = x ∧ t.name = y

def ToldAll (f e : Function) (facts : Facts) : Prop := ∀ x, Told f e x (facts.about x)

section

variable {f e : Function} {facts : Facts}

theorem toldAll_empty (f e : Function) : ToldAll f e {} := by
  intro x
  rw [Facts.about_empty]
  exact ⟨nofun, nofun, nofun, nofun, nofun, nofun, nofun, nofun⟩

theorem ToldAll.learn (h : ToldAll f e facts) {name : String} {add : Known → Known}
    (hadd : Told f e name (facts.about name) → Told f e name (add (facts.about name))) :
    ToldAll f e (facts.learn name add) := by
  intro x
  rw [Facts.about_learn]
  split
  · rename_i hx
    subst hx
    exact hadd (h name)
  · exact h x

theorem ToldAll.noteConst (h : ToldAll f e facts) {v : Var} {lit : Literal}
    (hlit : ∀ text, lit = .str text → KeyOrTemp f v.name → HoldsText e v.name text) :
    ToldAll f e (facts.noteConst v lit) := by
  cases lit with
  | str text =>
      refine h.learn fun hk => { hk with text := ?_ }
      intro text' htext
      cases htext
      exact hlit text rfl
  | _ => exact h

theorem ToldAll.noteCopies (h : ToldAll f e facts) {body : List Stmt}
    (hbody : ∀ s ∈ body, s ∈ f.stmts) : ToldAll f e (facts.noteCopies body) := by
  refine Facts.noteCopies_induct h fun g t source hs hg => ?_
  refine hg.learn fun hk => { hk with copiedTo := ?_ }
  intro y hy
  cases hy
  exact ⟨t, source, hbody _ hs, rfl, rfl⟩

end

section

variable {f e : Function} (hnames : f.NamesApart) (hcarries : f.Carries e)
  (haccess : f.AccessSettled)

include hcarries haccess

theorem settled_of_keyOrTemp {x : String} (h : KeyOrTemp f x) : e.Settled x := by
  rcases h with hkey | htemp
  · exact hcarries.settled x (haccess.key x hkey)
  · exact hcarries.temp x htemp

include hnames

theorem ToldAll.noteCopy {facts : Facts} (h : ToldAll f e facts) {t source : Var}
    (hs : .assign t (.copy source) ∈ f.stmts) : ToldAll f e (facts.noteCopy t source) := by
  have hs' := hcarries.copy t source hs
  refine h.learn fun hk => { hk with text := ?_, file := ?_, dataset := ?_ }
  · intro text htext hkey
    cases hsource : (facts.about source.name).str with
    | none =>
        simp only [Known.inherit, hsource] at htext
        exact hk.text text htext hkey
    | some text' =>
        simp only [Known.inherit, hsource] at htext
        cases htext
        have hfrom : f.Keys source.name := by
          rcases hkey with hkey | htemp
          · exact .copied hs hkey
          · exact absurd htemp (hnames.defined t.name (mem_definedNames hs rfl))
        exact .copy hs' rfl (settled_of_keyOrTemp hcarries haccess hkey)
          ((h source.name).text text hsource (Or.inl hfrom))
  · intro origin horigin
    cases hsource : (facts.about source.name).file with
    | none =>
        simp only [Known.inherit, hsource] at horigin
        exact hk.file origin horigin
    | some origin' =>
        simp only [Known.inherit, hsource] at horigin
        cases horigin
        obtain ⟨hhandle, name, hname, hkey, hfile⟩ := (h source.name).file origin hsource
        have ht : f.Handles t.name := .copied hs hhandle
        exact ⟨ht, name, hname, hkey,
          .copy hs' rfl (hcarries.settled _ (haccess.handle _ ht)) hfile⟩
  · intro d hd
    cases hsource : (facts.about source.name).dataset with
    | none =>
        simp only [Known.inherit, hsource] at hd
        exact hk.dataset d hd
    | some d' =>
        simp only [Known.inherit, hsource] at hd
        cases hd
        obtain ⟨hdataset, hkey⟩ := (h source.name).dataset d hsource
        exact ⟨.copied hs hdataset, hkey⟩

end

/-! ### The statements that are put in -/

section

variable (c : FileScope) (t : Var) (n : Nat)

theorem load_mem_callCode (e : EntryPoint) (args : List Var) :
    .assign (entryVar c e t.loc n) (.attr (temp c "io_abi" t.loc n) e.name) ∈
      callCode c e args t n := by
  simp [callCode, loadCode]

theorem call_mem_callCode (e : EntryPoint) (args : List Var) :
    .call t (entryVar c e t.loc n) args [] ∈ callCode c e args t n := by
  simp [callCode]

theorem openCode_eq (name : Var) (mode? : Option Var) :
    ∃ front mode parallel k, n ≤ k ∧
      openCode c t name n mode? = front ++ callCode c .openFile [name, mode, parallel] t k ∧
      (∀ u ∈ front, ∃ v lit, u = .assign v (.const lit)) ∧
      (mode? = some mode ∨
        GeneratedFrom n mode.name ∧ .assign mode (.const (.str "r")) ∈ front) := by
  cases mode? with
  | some mode =>
      refine ⟨[intConst (temp c "const_parallel" t.loc n) 0], mode, _, _, Nat.le_succ n, rfl, ?_,
        Or.inl rfl⟩
      exact fun u hu => ⟨_, _, List.mem_singleton.mp hu⟩
  | none =>
      refine ⟨[.assign (temp c "const_mode" t.loc n) (.const (.str "r")),
        intConst (temp c "const_parallel" t.loc (n + 1)) 0], _, _, _, Nat.le_add_right n 2, rfl, ?_,
        Or.inr ⟨generatedFrom_temp _ _ _ (Nat.le_refl n), List.mem_cons_self ..⟩⟩
      intro u hu
      simp only [List.mem_cons, List.not_mem_nil, or_false] at hu
      rcases hu with rfl | rfl <;> exact ⟨_, _, rfl⟩

end

/-- A call stays a call, or an entry point is called into its target. -/
theorem Expands.exists_call {c : FileScope} {st st' : Expansion} {t callee : Var}
    {args : List Var} {kws : List (String × Var)} {out : List Stmt}
    (h : Expands c st (.call t callee args kws) out st') :
    ∃ callee' args' kws', .call t callee' args' kws' ∈ out := by
  cases h with
  | openFile t callee args kws name hc hn =>
      obtain ⟨front, mode, parallel, k, -, hcode, -⟩ :=
        openCode_eq c t st.nextTemp name (args[1]? <|> kws.lookup "mode")
      rw [hcode]
      exact ⟨_, _, _, List.mem_append_right _ (call_mem_callCode ..)⟩
  | closeFile | createGroup => exact ⟨_, _, _, call_mem_callCode ..⟩
  | createDataset => exact ⟨_, _, _, List.mem_cons_of_mem _ (call_mem_callCode ..)⟩
  | call => exact ⟨_, _, _, List.mem_singleton_self _⟩

theorem args_of_mem_callCode {c : FileScope} {e : EntryPoint} {args args' : List Var}
    {t t' callee : Var} {kws : List (String × Var)} {n : Nat}
    (h : .call t' callee args' kws ∈ callCode c e args t n) :
    t' = t ∧ callee = entryVar c e t.loc n ∧ args' = args ∧ kws = [] := by
  simpa [callCode, loadCode] using h

theorem length_extentVars (c : FileScope) (loc : Loc) (dims : List Nat) (n : Nat) :
    (extentVars c loc dims n).length = dims.length := by
  induction dims generalizing n with
  | nil => rfl
  | cons dim dims ih => rw [extentVars, List.length_cons, List.length_cons, ih]

/-- What a read puts in front of the allocation of its buffer. -/
def sizeCode (c : FileScope) (t : Var) (d : DatasetRef) (rank n : Nat) : List Stmt :=
  loadCode c .size t.loc n ++
    extentCode c (entryVar c .size t.loc n) d t.loc (List.range rank) (n + 2)

/-- What a read puts between the allocation of its buffer and its last call. -/
def readyCode (c : FileScope) (t : Var) (rank : Nat) (counts : List Var) (n : Nat) : List Stmt :=
  [intConst (temp c "h5_ndims" t.loc n) rank, intConst (temp c "const_zero" t.loc (n + 1)) 0,
    .assign (temp c "h5_starts" t.loc (n + 2))
      (.tuple (List.replicate rank (temp c "const_zero" t.loc (n + 1)))),
    .assign (temp c "h5_counts" t.loc (n + 3)) (.tuple counts)] ++ loadCode c .read t.loc (n + 5)

def fillCode (c : FileScope) (t : Var) (d : DatasetRef) (type : ArrayType) (n : Nat) : List Stmt :=
  let vars := extentVars c t.loc (List.range type.rank) (n + 2)
  sizeCode c t d type.rank n ++
    .assign t (.alloc vars type.elem) :: readyCode c t type.rank vars (n + 2 + 2 * type.rank)

theorem readCode_eq (c : FileScope) (t : Var) (d : DatasetRef) (type : ArrayType) (n : Nat) :
    readCode c t d type n = fillCode c t d type n ++
      [.call (temp c "h5_err" t.loc (n + 2 + 2 * type.rank + 4))
        (entryVar c .read t.loc (n + 2 + 2 * type.rank + 5))
        [d.file, d.name, temp c "h5_ndims" t.loc (n + 2 + 2 * type.rank),
          temp c "h5_starts" t.loc (n + 2 + 2 * type.rank + 2),
          temp c "h5_counts" t.loc (n + 2 + 2 * type.rank + 3),
          temp c "const_zero" t.loc (n + 2 + 2 * type.rank + 1), t] []] := by
  simp only [readCode, transferCode, callCode, fillCode, sizeCode, readyCode, List.append_assoc,
    List.cons_append, List.nil_append]
  rfl

theorem call_mem_extentCode {c : FileScope} {sizeEntry : Var} {d : DatasetRef} {loc : Loc}
    {dims : List Nat} {n : Nat} {t callee : Var} {args : List Var} {kws : List (String × Var)}
    (h : .call t callee args kws ∈ extentCode c sizeEntry d loc dims n) : callee = sizeEntry := by
  induction dims generalizing n with
  | nil => cases h
  | cons dim dims ih =>
      rcases List.mem_cons.mp h with h | h
      · cases h
      · rcases List.mem_cons.mp h with h | h
        · cases h
          rfl
        · exact ih h

theorem of_mem_readyCode {c : FileScope} {t : Var} {rank n : Nat} {counts : List Var} {u : Stmt}
    (h : u ∈ readyCode c t rank counts n) :
    (∀ t' callee args kws, u ≠ .call t' callee args kws) ∧
      ∀ x, u.Assigns x → GeneratedFrom n x := by
  simp only [readyCode, loadCode, intConst, List.mem_append, List.mem_cons, List.not_mem_nil,
    or_false] at h
  rcases h with (rfl | rfl | rfl | rfl) | rfl | rfl <;> refine ⟨nofun, ?_⟩ <;> intro x hx <;>
    cases hx <;> exact generatedFrom_temp _ _ _ (by omega)

theorem call_mem_fillCode {c : FileScope} {t t' callee : Var} {d : DatasetRef} {type : ArrayType}
    {n : Nat} {args : List Var} {kws : List (String × Var)}
    (h : .call t' callee args kws ∈ fillCode c t d type n) : callee = entryVar c .size t.loc n := by
  rcases List.mem_append.mp h with h | h
  · rcases List.mem_append.mp h with h | h
    · simp [loadCode] at h
    · exact call_mem_extentCode h
  · rcases List.mem_cons.mp h with h | h
    · cases h
    · exact absurd rfl ((of_mem_readyCode h).1 _ _ _ _)

theorem loads_mem_fillCode (c : FileScope) (t : Var) (d : DatasetRef) (type : ArrayType) (n : Nat) :
    .assign (entryVar c .size t.loc n) (.attr (temp c "io_abi" t.loc n) EntryPoint.size.name) ∈
        fillCode c t d type n ∧
      .assign (entryVar c .read t.loc (n + 2 + 2 * type.rank + 5))
        (.attr (temp c "io_abi" t.loc (n + 2 + 2 * type.rank + 5)) EntryPoint.read.name) ∈
        fillCode c t d type n := by
  simp [fillCode, sizeCode, readyCode, loadCode]

theorem eq_or_mem_of_append_singleton {α : Type} {l r a : List α} {x y : α}
    (h : l ++ x :: r = a ++ [y]) : (l = a ∧ x = y) ∨ x ∈ a := by
  rcases List.append_eq_append_iff.mp h with ⟨c, rfl, hc⟩ | ⟨c, rfl, hc⟩
  · cases c with
    | nil =>
        cases hc
        exact Or.inl ⟨(List.append_nil _).symm, rfl⟩
    | cons z c =>
        cases hc
        exact Or.inr (List.mem_append_right _ (List.mem_cons_self ..))
  · cases c with
    | nil =>
        cases hc
        exact Or.inl ⟨List.append_nil _, rfl⟩
    | cons z c => simp at hc

section

variable {f e : Function} {c : FileScope} {facts : Facts} {t : Var}

/-- The catalog gives the type of the dataset that the variables name. -/
theorem introspect_ok {d : DatasetRef} {type : ArrayType} {C : Catalog}
    (hfacts : ToldAll f e facts) (hc : c.catalog = some C.inspect) (hd : KeyOrTemp f d.name.name)
    (h : c.introspect facts t d = .ok type) :
    ∃ name source path, HoldsFile e d.file.name name ∧ HoldsText e name.name source ∧
      HoldsText e d.name.name path ∧ C.inspect source path = .ok type := by
  unfold FileScope.introspect at h
  simp only at h
  split at h
  · cases h
  · split at h
    · rename_i source path hsource hpath
      unfold Facts.sourceName? at hsource
      split at hsource
      · rename_i name hfile
        obtain ⟨-, name', heq, hkey, hholds⟩ := (hfacts d.file.name).file _ hfile
        cases heq
        simp only [hc] at h
        split at h
        · rename_i hinspect
          cases h
          exact ⟨name, source, path, hholds, (hfacts _).text _ hsource (Or.inl hkey),
            (hfacts _).text _ hpath hd, hinspect⟩
        · cases h
      · cases hsource
    · cases h

theorem declared?_eq_none {base : Var} {index : Literal} {indexVar : Option Var}
    (hfacts : ToldAll f e facts) (hf : f.OpensForReading) (hc : c.locals = f.locals)
    (hs : .assign t (.constItem base index indexVar) ∈ f.stmts)
    (hi : index.isFullSlice = true) (hd : f.Datasets base.name) :
    c.declared? facts t = none := by
  obtain ⟨hself, hcopy⟩ := hf.undeclared t base index indexVar hs hi hd
  unfold FileScope.declared?
  rw [hc, hself]
  simp only
  cases hto : (facts.about t.name).copiedTo with
  | none => rfl
  | some y =>
      obtain ⟨u, source, hu, hsource, rfl⟩ := (hfacts t.name).copiedTo y hto
      exact hcopy u source hu hsource

end

/-! ### One statement -/

section

variable {f e : Function} (hnames : f.NamesApart) (hcarries : f.Carries e)
  (haccess : f.AccessSettled) (hf : f.OpensForReading)

include hcarries hf

variable {c : FileScope} {st st' : Expansion} {s : Stmt} {out : List Stmt}

theorem holdsText_mode {t callee name : Var} {args : List Var} {kws : List (String × Var)}
    (hs : .call t callee args kws ∈ f.stmts) (hc : f.TakesFile callee.name)
    (hn : f.nextTemp ≤ st.nextTemp)
    (hout : ∀ u ∈ openCode c t name st.nextTemp (args[1]? <|> kws.lookup "mode"), u ∈ e.stmts) :
    ∃ mode parallel k, f.nextTemp ≤ k ∧
      (∀ u ∈ callCode c .openFile [name, mode, parallel] t k, u ∈ e.stmts) ∧
      (∀ t' callee' args' kws', .call t' callee' args' kws' ∈
        openCode c t name st.nextTemp (args[1]? <|> kws.lookup "mode") →
          .call t' callee' args' kws' ∈ callCode c .openFile [name, mode, parallel] t k) ∧
      HoldsText e mode.name "r" := by
  obtain ⟨front, mode, parallel, k, hk, hcode, hfront, hmode⟩ :=
    openCode_eq c t st.nextTemp name (args[1]? <|> kws.lookup "mode")
  rw [hcode] at hout ⊢
  refine ⟨mode, parallel, k, Nat.le_trans hn hk, fun u hu => hout u (List.mem_append_right _ hu),
    fun t' callee' args' kws' hcall => ?_, ?_⟩
  · rcases List.mem_append.mp hcall with hset | hcode
    · obtain ⟨v, lit, heq⟩ := hfront _ hset
      cases heq
    · exact hcode
  · rcases hmode with hgiven | ⟨htemp, hconst⟩
    · exact hcarries.holdsText (hf.mode t callee args kws mode hs hc hgiven)
    · exact .const (hout _ (List.mem_append_left _ hconst)) rfl (hcarries.temp _ (htemp.mono hn))

/-- A callee is no method of a handle, since methods have the names of entry points. -/
theorem not_takesMethod {t callee : Var} {args : List Var} {kws : List (String × Var)}
    (hcall : .call t callee args kws ∈ f.stmts) (m : Method) : ¬ TakesMethod e callee.name m := by
  rintro ⟨u, base, hu, hx⟩
  have hnone := hcarries.holdsNoEntry (hf.callee t callee args kws hcall)
  cases hnone with
  | made hm hx' hset hvalue =>
      cases hset.eq_of_assigns hu hm (congrArg some hx) (congrArg some hx')
      cases m <;> cases hvalue
  | returned hc hx' hset => cases hset.eq_of_assigns hu hc (congrArg some hx) (congrArg some hx')
  | copy hc hx' hset _ => cases hset.eq_of_assigns hu hc (congrArg some hx) (congrArg some hx')

omit hf in
theorem holdsEntry_of_load {p : EntryPoint} {loc : Loc} {n : Nat} (hn : f.nextTemp ≤ n)
    (hload : .assign (entryVar c p loc n) (.attr (temp c "io_abi" loc n) p.name) ∈ e.stmts) :
    HoldsEntry e (entryVar c p loc n).name p :=
  ⟨⟨_, _, hload, rfl⟩, hcarries.temp _ (generatedFrom_temp _ _ _ (Nat.le_succ_of_le hn))⟩

include hnames haccess

theorem Expands.toldAll (h : Expands c st s out st') (hs : s ∈ f.stmts)
    (hout : ∀ u ∈ out, u ∈ e.stmts) (hn : f.nextTemp ≤ st.nextTemp)
    (hst : ToldAll f e st.facts) : ToldAll f e st'.facts := by
  cases h with
  | frontEnd t => exact hst.learn fun hk => { hk with }
  | opener t base hb => exact hst.learn fun hk => { hk with opener := fun _ => ⟨t, base, hs, rfl⟩ }
  | method t base m hb hf' =>
      have htakes : TakesMethod e t.name m := ⟨t, base, hout _ (List.mem_singleton_self _), rfl⟩
      refine hst.learn fun hk => ?_
      cases m with
      | close => exact { hk with closes := fun _ _ => htakes }
      | createDataset => exact { hk with makesDataset := fun _ _ => htakes }
      | createGroup => exact { hk with makesGroup := fun _ _ => htakes }
  | datasetVar t base v index hf' =>
      obtain ⟨origin, horigin⟩ := Option.isSome_iff_exists.mp hf'
      have hbase : f.Handles base.name := ((hst base.name).file origin horigin).1
      have hnoted : ToldAll f e (st.facts.noteConst v index) := by
        refine hst.noteConst fun text htext _ => ?_
        subst htext
        exact hcarries.holdsText (hf.key t base text v hs hbase)
      refine hnoted.learn fun hk => { hk with dataset := fun d hd => ?_ }
      cases hd
      exact ⟨.constItem hs hbase, Or.inl (.constItem hs hbase)⟩
  | datasetKey t base key hf' =>
      obtain ⟨origin, horigin⟩ := Option.isSome_iff_exists.mp hf'
      have hbase : f.Handles base.name := ((hst base.name).file origin horigin).1
      have htemp := generatedFrom_temp c "dset_name" t.loc hn
      have hnoted : ToldAll f e (st.facts.noteConst (temp c "dset_name" t.loc st.nextTemp)
          (.str key)) := by
        refine hst.noteConst fun text htext _ => ?_
        cases htext
        exact .const (hout _ (List.mem_cons_self ..)) rfl (hcarries.temp _ htemp)
      refine hnoted.learn fun hk => { hk with dataset := fun d hd => ?_ }
      cases hd
      exact ⟨.constItem hs hbase, Or.inr htemp⟩
  | read t base index indexVar d type hf' hd hi ht => exact hst
  | datasetItem t base index hf' =>
      obtain ⟨origin, horigin⟩ := Option.isSome_iff_exists.mp hf'
      have hbase : f.Handles base.name := ((hst base.name).file origin horigin).1
      refine hst.learn fun hk => { hk with dataset := fun d hd => ?_ }
      cases hd
      exact ⟨.item hs hbase, Or.inl (.item hs hbase)⟩
  | tuple t items => exact hst.learn fun hk => { hk with }
  | copy t source => exact hst.noteCopy hnames hcarries haccess hs
  | const t lit =>
      refine hst.noteConst fun text htext hkey => ?_
      subst htext
      exact .const (hout _ (List.mem_singleton_self _)) rfl
        (settled_of_keyOrTemp hcarries haccess hkey)
  | plain t value hp => exact hst
  | openFile t callee args kws name hc hname =>
      have htakes := (hst callee.name).opener hc
      refine hst.learn fun hk => { hk with file := fun origin horigin => ?_ }
      cases horigin
      obtain ⟨mode, parallel, k, hk', hcode, -, hmode⟩ :=
        holdsText_mode hcarries hf hs htakes hn hout
      exact ⟨.opened hs htakes, name, rfl, .arg hs htakes (mem_of_argument hname), .openFile
        (holdsEntry_of_load hcarries hk' (hcode _ (load_mem_callCode ..)))
        (hcode _ (call_mem_callCode ..)) rfl
        (hcarries.settled _ (haccess.handle _ (.opened hs htakes))) hmode⟩
  | closeFile t callee args kws file ho hc => exact hst
  | createDataset t callee args kws file name shape elem dims ho hx hc hn hs' he hd =>
      exact absurd ((hst callee.name).makesDataset file hc)
        (not_takesMethod hcarries hf hs .createDataset)
  | createGroup t callee args kws file name ho hx hy hc hn =>
      exact absurd ((hst callee.name).makesGroup file hc)
        (not_takesMethod hcarries hf hs .createGroup)
  | call t callee args kws hc => exact hst
  | write t index value d rank hf' hd hi hr => exact hst
  | store t index value hf' hd => exact hst

omit haccess in
/-- What stands for a statement calls nothing but what reading takes. -/
theorem Expands.sourceCall (h : Expands c st s out st') (hs : s ∈ f.stmts)
    (hout : ∀ u ∈ out, u ∈ e.stmts) (hn : f.nextTemp ≤ st.nextTemp)
    (hst : ToldAll f e st.facts) {C : Catalog}
    (hcat : c.catalog = some C.inspect) (hlocals : c.locals = f.locals) {row rest : List Stmt}
    {t callee : Var} {args : List Var} {kws : List (String × Var)}
    (heq : out = row ++ .call t callee args kws :: rest) :
    SourceCall C e row (.call t callee args kws) := by
  have hcall : .call t callee args kws ∈ out :=
    heq ▸ List.mem_append_right _ (List.mem_cons_self ..)
  cases h with
  | read t' base index indexVar d type hf' hd hi ht =>
      obtain ⟨hdataset, hkey⟩ := (hst base.name).dataset d hd
      have hintro : c.introspect st.facts t' d = .ok type := by
        rw [FileScope.resolve, declared?_eq_none hst hf hlocals hs hi hdataset] at ht
        exact ht
      obtain ⟨name, source, path, hfile, hsource, hpath, htype⟩ :=
        introspect_ok hst hcat hkey hintro
      rw [readCode_eq] at heq hout
      have hloads := loads_mem_fillCode c t' d type st.nextTemp
      rcases eq_or_mem_of_append_singleton heq.symm with ⟨rfl, hlast⟩ | hmem
      · cases hlast
        refine .read (holdsEntry_of_load hcarries (by omega)
          (hout _ (List.mem_append_left _ hloads.2))) hfile hsource hpath htype
          ⟨_, t', _, _, rfl, rfl, by rw [length_extentVars, List.length_range], fun u hu hx => ?_⟩
        exact hnames.defined _ (mem_definedNames hs rfl)
          (((of_mem_readyCode hu).2 _ hx).mono (by omega))
      · cases call_mem_fillCode hmem
        exact .size (holdsEntry_of_load hcarries hn (hout _ (List.mem_append_left _ hloads.1)))
  | openFile t' callee' args' kws' name hc hname =>
      obtain ⟨mode, parallel, k, hk, hcode, hcalls, hmode⟩ :=
        holdsText_mode hcarries hf hs ((hst callee'.name).opener hc) hn hout
      obtain ⟨rfl, rfl, rfl, rfl⟩ := args_of_mem_callCode (hcalls _ _ _ _ hcall)
      exact .openFile (holdsEntry_of_load hcarries hk (hcode _ (load_mem_callCode ..))) hmode
  | closeFile t' callee' args' kws' file ho hc =>
      exact absurd ((hst callee'.name).closes file hc)
        (not_takesMethod hcarries hf hs .close)
  | createDataset t' callee' args' kws' file name shape elem dims ho hx hc hname hs' he hd =>
      exact absurd ((hst callee'.name).makesDataset file hc)
        (not_takesMethod hcarries hf hs .createDataset)
  | createGroup t' callee' args' kws' file name ho hx hy hc hname =>
      exact absurd ((hst callee'.name).makesGroup file hc)
        (not_takesMethod hcarries hf hs .createGroup)
  | call t' callee' args' kws' hc =>
      cases List.mem_singleton.mp hcall
      exact .stuck (hcarries.holdsNoEntry (hf.callee _ _ _ _ hs))
  | write t' index value d rank hf' hd hi hr =>
      rcases List.mem_append.mp hcall with hset | hcode
      · simp [intConst] at hset
      · obtain ⟨rfl, rfl, rfl, rfl⟩ := args_of_mem_callCode hcode
        exact .write (holdsEntry_of_load hcarries (by omega)
          (hout _ (List.mem_append_right _ (load_mem_callCode ..))))
  | datasetKey t' base key hf' =>
      simp at hcall
  | _ => cases List.mem_singleton.mp hcall

end

end Expand

/-! ### The whole function -/

theorem SourceCall.append_row {C : Catalog} {e : Function} {row : List Stmt} {s : Stmt}
    (h : SourceCall C e row s) (front : List Stmt) : SourceCall C e (front ++ row) s := by
  cases h with
  | stuck h => exact .stuck h
  | openFile hload hmode => exact .openFile hload hmode
  | size hload => exact .size hload
  | write hload => exact .write hload
  | read hload hfile hsource hpath htype hbuffer =>
      refine .read hload hfile hsource hpath htype ?_
      obtain ⟨before, t, vars, rest, rfl, hx, hrank, hrest⟩ := hbuffer
      exact ⟨front ++ before, t, vars, rest, (List.append_assoc ..).symm, hx, hrank, hrest⟩

theorem Allocates.filter {row : List Stmt} {x : String} {type : ArrayType}
    (h : Allocates row x type) {keep : Stmt → Bool}
    (hkeep : ∀ u ∈ row, u.Assigns x → keep u = true) :
    Allocates (row.filter keep) x type := by
  obtain ⟨front, t, vars, rest, rfl, hx, hrank, hrest⟩ := h
  have hkept := hkeep (.assign t (.alloc vars type.elem))
    (List.mem_append_right _ (List.mem_cons_self ..)) (congrArg some hx)
  refine ⟨front.filter keep, t, vars, rest.filter keep, ?_, hx, hrank,
    fun u hu => hrest u (List.mem_filter.mp hu).1⟩
  rw [List.filter_append, List.filter_cons_of_pos hkept]

namespace Function

open Expand

variable {f e : Function} {C : Catalog} {vs : List Visit} {st : Expansion}

namespace Expanded

variable {catalog : Option Inspector}

theorem mem_stmts (h : f.Expanded catalog vs st e) {v : Visit} (hv : v ∈ vs) {out : List Stmt}
    (hout : out ∈ v.outs) {u : Stmt} (hu : u ∈ out) : u ∈ e.stmts :=
  Function.mem_stmts (h.visited v hv).2 (List.mem_flatten.mpr ⟨out, hout, hu⟩)

theorem carries (h : f.Expanded catalog vs st e) (hnames : f.NamesApart) : f.Carries e := by
  have hexp : ∀ s ∈ f.stmts, ∃ out st₁ st₂, Expands (f.fileScope catalog) st₁ s out st₂ ∧
      ∀ u ∈ out, u ∈ e.stmts := by
    intro s hs
    obtain ⟨l, b, hb, hsb⟩ := exists_block_of_mem_stmts hs
    obtain ⟨v, hv, -, rfl⟩ := h.exists_visit_block hb
    obtain ⟨out, hout, st₁, st₂, hx⟩ := h.visits.exists_out hv hsb
    exact ⟨out, st₁, st₂, hx, fun u hu => h.mem_stmts hv hout hu⟩
  refine ⟨fun t value hs hvalue => ?_, fun t source hs => ?_, fun t callee args kws hs => ?_,
    fun x hx => h.settled hnames hx, fun x hx => h.settled_temp hnames hx⟩
  · obtain ⟨out, st₁, st₂, hx, hout⟩ := hexp _ hs
    cases hx with
    | datasetVar | datasetKey | read | datasetItem | copy => cases hvalue
    | _ => exact hout _ (List.mem_singleton_self _)
  · obtain ⟨out, st₁, st₂, hx, hout⟩ := hexp _ hs
    cases hx with
    | copy _ _ => exact hout _ (List.mem_singleton_self _)
    | plain _ _ hp => exact hout _ (List.mem_singleton_self _)
  · obtain ⟨out, st₁, st₂, hx, hout⟩ := hexp _ hs
    obtain ⟨callee', args', kws', hcall⟩ := hx.exists_call
    exact ⟨callee', args', kws', hout _ hcall⟩

/-- All calls of the function that is left are those that reading takes. -/
theorem sourceCall (h : f.Expanded (some C.inspect) vs st e) (hnames : f.NamesApart)
    (haccess : f.AccessSettled) (hf : f.OpensForReading) {l : Label} {b : Block}
    (hb : e.block? l = some b) {row rest : List Stmt} {t callee : Var} {args : List Var}
    {kws : List (String × Var)} (hbody : b.body = row ++ .call t callee args kws :: rest) :
    SourceCall C e row (.call t callee args kws) := by
  have hcarries := h.carries hnames
  have hblock : ∀ v ∈ vs, ∀ s ∈ v.block.body, s ∈ f.stmts :=
    fun v hv s hs => Function.mem_stmts (h.visited v hv).1 hs
  have htold := h.visits.invariant
    (I := fun st => f.nextTemp ≤ st.nextTemp ∧ ToldAll f e st.facts)
    (fun st v hv hst => ⟨hst.1, hst.2.noteCopies (hblock v hv)⟩)
    (fun v hv st₁ s out st₂ hs hout hx hst => ⟨Nat.le_trans hst.1 hx.nextTemp_le,
      hx.toldAll hnames hcarries haccess hf (hblock v hv s hs)
        (fun u hu => h.mem_stmts hv hout hu) hst.1 hst.2⟩)
    ⟨Nat.le_refl _, toldAll_empty _ _⟩
  obtain ⟨v, hv, -, rfl⟩ := h.exists_visit hb
  obtain ⟨before, front, back, hout, rfl⟩ := exists_of_flatten_eq hbody
  obtain ⟨s, hs, st₁, st₂, hx, hn, hst⟩ := htold v hv _ hout
  exact (hx.sourceCall hnames hcarries hf (hblock v hv s hs)
    (fun u hu => h.mem_stmts hv hout hu) hn hst rfl rfl rfl).append_row before

end Expanded

def stock : Catalog :=
  (BySource.empty.insert "stock.h5" "prices" ⟨.float64, [2]⟩).insert
    "stock.h5" "counts" ⟨.int32, [2]⟩

/-- Opens a source and reads one or the other dataset into the same name. What it calls in
the end is nothing that exists. -/
def readEither : Function where
  name := "either"
  params := ["flag"]
  blocks := #[
    { body := [
        .assign ⟨0, "m", ⟨1, 1⟩⟩ (.global .h5py),
        .assign ⟨0, "open", ⟨2, 1⟩⟩ (.attr ⟨0, "m", ⟨2, 1⟩⟩ "File"),
        .assign ⟨0, "source", ⟨3, 1⟩⟩ (.const (.str "stock.h5")),
        .call ⟨0, "f", ⟨4, 1⟩⟩ ⟨0, "open", ⟨4, 1⟩⟩ [⟨0, "source", ⟨4, 1⟩⟩] []]
      term := .branch ⟨0, "flag", ⟨5, 1⟩⟩ 1 2 },
    { body := [
        .assign ⟨0, "d", ⟨6, 1⟩⟩ (.constItem ⟨0, "f", ⟨6, 1⟩⟩ (.str "prices") none),
        .assign ⟨0, "x", ⟨7, 1⟩⟩ (.constItem ⟨0, "d", ⟨7, 1⟩⟩ (.slice .full) none)]
      term := .jump 3 },
    { body := [
        .assign ⟨0, "d", ⟨8, 1⟩⟩ (.constItem ⟨0, "f", ⟨8, 1⟩⟩ (.str "counts") none),
        .assign ⟨0, "x", ⟨9, 1⟩⟩ (.constItem ⟨0, "d", ⟨9, 1⟩⟩ (.slice .full) none)]
      term := .jump 3 },
    { body := [
        .assign ⟨0, "keys", ⟨10, 1⟩⟩ (.attr ⟨0, "f", ⟨10, 1⟩⟩ "keys"),
        .call ⟨0, "names", ⟨11, 1⟩⟩ ⟨0, "keys", ⟨11, 1⟩⟩ [⟨0, "x", ⟨11, 1⟩⟩] []]
      term := .ret (some ⟨0, "x", ⟨12, 1⟩⟩) }]

theorem order_readEither : readEither.order = [0, 2, 1, 3] := by
  simp [readEither, order, reachOrder, BlockGraph.search, successors, block?, Terminator.successors]
  decide

theorem readEither_takesFile {x : String} (h : readEither.TakesFile x) : x = "open" := by
  obtain ⟨t, base, ht, rfl⟩ := h
  simp_all [stmts, readEither]

theorem readEither_call {t callee : Var} {args : List Var} {kws : List (String × Var)}
    (h : .call t callee args kws ∈ readEither.stmts) :
    t.name = "f" ∧ callee.name = "open" ∧ args = [⟨0, "source", ⟨4, 1⟩⟩] ∧ kws = [] ∨
      callee.name = "keys" := by
  simp [stmts, readEither] at h
  rcases h with ⟨rfl, rfl, rfl, rfl⟩ | ⟨rfl, rfl, rfl, rfl⟩
  · exact Or.inl ⟨rfl, rfl, rfl, rfl⟩
  · exact Or.inr rfl

theorem readEither_opens {t callee : Var} {args : List Var} {kws : List (String × Var)}
    (h : .call t callee args kws ∈ readEither.stmts) (hc : readEither.TakesFile callee.name) :
    t.name = "f" ∧ args = [⟨0, "source", ⟨4, 1⟩⟩] ∧ kws = [] := by
  rcases readEither_call h with ⟨ht, -, hargs, hkws⟩ | hname
  · exact ⟨ht, hargs, hkws⟩
  · exact absurd (hname.symm.trans (readEither_takesFile hc)) (by decide)

theorem readEither_handles {x : String} (h : readEither.Handles x) : x = "f" := by
  induction h with
  | opened h hc => exact (readEither_opens h hc).1
  | copied h _ _ => simp [stmts, readEither] at h

theorem readEither_keys {x : String} (h : readEither.Keys x) : x = "source" := by
  induction h with
  | arg h hc hv =>
      obtain ⟨-, rfl, rfl⟩ := readEither_opens h hc
      rw [List.mem_singleton.mp hv]
  | item h _ => simp [stmts, readEither] at h
  | constItem h _ => simp [stmts, readEither] at h
  | copied h _ _ => simp [stmts, readEither] at h

theorem readEither_accessSettled : readEither.AccessSettled where
  handle x hx := by
    rw [readEither_handles hx]
    exact ⟨by decide +kernel, by decide +kernel⟩
  key x hx := by
    rw [readEither_keys hx]
    exact ⟨by decide +kernel, by decide +kernel⟩

theorem readEither_opensForReading : readEither.OpensForReading where
  callee t callee args kws h := by
    have hopen : .assign ⟨0, "open", ⟨2, 1⟩⟩ (.attr ⟨0, "m", ⟨2, 1⟩⟩ "File") ∈
        readEither.stmts := by simp [stmts, readEither]
    have hkeys : .assign ⟨0, "keys", ⟨10, 1⟩⟩ (.attr ⟨0, "f", ⟨10, 1⟩⟩ "keys") ∈
        readEither.stmts := by simp [stmts, readEither]
    rcases readEither_call h with ⟨-, hname, -⟩ | hname
    · rw [hname]
      exact .made hopen rfl ⟨by decide +kernel, by decide +kernel⟩ rfl
    · rw [hname]
      exact .made hkeys rfl ⟨by decide +kernel, by decide +kernel⟩ rfl
  mode t callee args kws mode h hc hmode := by
    obtain ⟨-, rfl, rfl⟩ := readEither_opens h hc
    cases hmode
  key t base key v h := by
    simp [stmts, readEither] at h
  undeclared t base index indexVar h hi hd := by
    refine ⟨by simp [readEither], fun u source hu => ?_⟩
    simp [stmts, readEither] at hu

theorem readEither_namesApart : readEither.NamesApart where
  unused := tempsUnused_of_not_isTemp (by decide +kernel)
  params x hx := by
    rw [List.mem_singleton.mp hx]
    exact not_generatedFrom_of_head (by decide) _

/-- Reads a dataset under a key that a parameter has replaced. -/
def rebindKey : Function where
  name := "rebind"
  params := ["other"]
  blocks := #[
    { body := [
        .assign ⟨0, "m", ⟨1, 1⟩⟩ (.global .h5py),
        .assign ⟨0, "open", ⟨2, 1⟩⟩ (.attr ⟨0, "m", ⟨2, 1⟩⟩ "File"),
        .assign ⟨0, "source", ⟨3, 1⟩⟩ (.const (.str "stock.h5")),
        .call ⟨0, "f", ⟨4, 1⟩⟩ ⟨0, "open", ⟨4, 1⟩⟩ [⟨0, "source", ⟨4, 1⟩⟩] [],
        .assign ⟨0, "key", ⟨5, 1⟩⟩ (.const (.str "prices")),
        .assign ⟨0, "key", ⟨6, 1⟩⟩ (.copy ⟨0, "other", ⟨6, 1⟩⟩),
        .assign ⟨0, "d", ⟨7, 1⟩⟩ (.item ⟨0, "f", ⟨7, 1⟩⟩ ⟨0, "key", ⟨7, 1⟩⟩),
        .assign ⟨0, "x", ⟨8, 1⟩⟩ (.constItem ⟨0, "d", ⟨8, 1⟩⟩ (.slice .full) none)]
      term := .ret (some ⟨0, "x", ⟨9, 1⟩⟩) }]

theorem rebindKey_opensForReading : rebindKey.OpensForReading where
  callee t callee args kws h := by
    have hname : callee.name = "open" := by simp_all [stmts, rebindKey]
    rw [hname]
    have hload : .assign ⟨0, "open", ⟨2, 1⟩⟩ (.attr ⟨0, "m", ⟨2, 1⟩⟩ "File") ∈ rebindKey.stmts := by
      simp [stmts, rebindKey]
    exact .made hload rfl ⟨by decide +kernel, by decide +kernel⟩ rfl
  mode t callee args kws mode h _ hmode := by
    simp_all [stmts, rebindKey]
  key t base key v h := by
    simp [stmts, rebindKey] at h
  undeclared t base index indexVar h hi _ := by
    exact ⟨by simp [rebindKey], fun u source hu _ => by simp [rebindKey]⟩

theorem rebindKey_namesApart : rebindKey.NamesApart where
  unused := tempsUnused_of_not_isTemp (by decide +kernel)
  params x hx := by
    rw [List.mem_singleton.mp hx]
    exact not_generatedFrom_of_head (by decide) _

/-- The body of it when its file calls are positional. The key is looked up as
`prices`; when the body runs it holds the argument. -/
def rebindKeyCode : List Stmt :=
  let c := rebindKey.fileScope (some stock.inspect)
  .assign ⟨0, "source", ⟨3, 1⟩⟩ (.const (.str "stock.h5")) ::
    openCode c ⟨0, "f", ⟨4, 1⟩⟩ ⟨0, "source", ⟨4, 1⟩⟩ 0 none ++
    [.assign ⟨0, "key", ⟨5, 1⟩⟩ (.const (.str "prices")),
      .assign ⟨0, "key", ⟨6, 1⟩⟩ (.copy ⟨0, "other", ⟨6, 1⟩⟩)] ++
    fillCode c ⟨0, "x", ⟨8, 1⟩⟩ ⟨⟨0, "f", ⟨7, 1⟩⟩, ⟨0, "key", ⟨7, 1⟩⟩⟩ ⟨.float64, 1⟩ 4

def rebindKeyRead : Stmt :=
  let c := rebindKey.fileScope (some stock.inspect)
  .call (temp c "h5_err" ⟨8, 1⟩ 12) (entryVar c .read ⟨8, 1⟩ 13)
    [⟨0, "f", ⟨7, 1⟩⟩, ⟨0, "key", ⟨7, 1⟩⟩, temp c "h5_ndims" ⟨8, 1⟩ 8, temp c "h5_starts" ⟨8, 1⟩ 10,
      temp c "h5_counts" ⟨8, 1⟩ 11, temp c "const_zero" ⟨8, 1⟩ 9, ⟨0, "x", ⟨8, 1⟩⟩] []

def rebindKeyBlock : Block where
  body := rebindKeyCode ++ [rebindKeyRead]
  term := .ret (some ⟨0, "x", ⟨9, 1⟩⟩)

theorem expandFiles_rebindKey :
    ∃ g, rebindKey.expandFiles (some stock.inspect) = .ok g ∧ g.blocks = #[rebindKeyBlock] ∧
      g.params = ["other"] ∧ g.entry = 0 := by
  refine exists_expandFiles_blocks 10 #[{
    body := rebindKey.stmts.take 3 ++
      openCode (rebindKey.fileScope (some stock.inspect)) ⟨0, "f", ⟨4, 1⟩⟩
        ⟨0, "source", ⟨4, 1⟩⟩ 0 none ++
      (rebindKey.stmts.drop 4).take 3 ++
      readCode (rebindKey.fileScope (some stock.inspect)) ⟨0, "x", ⟨8, 1⟩⟩
        ⟨⟨0, "f", ⟨7, 1⟩⟩, ⟨0, "key", ⟨7, 1⟩⟩⟩ ⟨.float64, 1⟩ 4
    term := .ret (some ⟨0, "x", ⟨9, 1⟩⟩) }] (order_eq_singleton rfl) ?_ ?_
  · decide +kernel
  · decide +kernel

def readElems? (m : Machine Store) (p : Prepared) : Option (ElementType × ElementType) :=
  match p.request, p.dest with
  | .read file path _ _ _ _, some (_, a) =>
    (m.device.dataset? file path).map fun d => (a.elem, d.2.2.elem)
  | _, _ => none

theorem not_matches_of_readElems? {m : Machine Store} {p : Prepared} {elem elem' : ElementType}
    (h : readElems? m p = some (elem, elem')) (hne : elem ≠ elem') :
    ∃ file path start count stride data, p.request = .read file path start count stride data ∧
      ∀ C, ¬ p.Matches C m.device file path := by
  unfold readElems? at h
  split at h
  · rename_i file path start count stride data x a hread hdest
    refine ⟨file, path, start, count, stride, data, hread, ?_⟩
    rintro C ⟨y, b, source, info, hb, hinfo, -, helem, -⟩
    rw [hinfo] at h
    rw [hdest] at hb
    cases hb
    cases h
    exact hne helem
  · cases h

end Function

end SpmdArrays
