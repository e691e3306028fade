import SpmdArrays.Proofs.FileCalls.Emission
import SpmdArrays.Proofs.FileCalls.NeededNames

/-!
All that can happen to one statement while file calls are made positional.
`Expands c st s out st'` says that the statement `s`, looked at in state `st`, is
replaced by `out` and leaves the state `st'`; each constructor is one way of
recognising a statement, with the facts that it rests on. Everything later said
about the expansion of a function is said about this relation, and nothing later
opens the computation that it comes from.
-/

namespace SpmdArrays

namespace Expand

/-- The attributes of a handle that are remembered. -/
inductive Method where
  | close
  | createDataset
  | createGroup
  deriving DecidableEq, Repr

namespace Method

def name : Method → String
  | .close => "close"
  | .createDataset => "create_dataset"
  | .createGroup => "create_group"

def note (file : Var) : Method → Known → Known
  | .close, k => { k with closes := some file }
  | .createDataset, k => { k with makesDataset := some file }
  | .createGroup, k => { k with makesGroup := some file }

end Method

/-! ### Emission of open and create -/

def openCode (c : FileScope) (target name : Var) (n : Nat) : Option Var → List Stmt
  | some mode =>
    intConst (temp c "const_parallel" target.loc n) 0 ::
      callCode c .openFile [name, mode, temp c "const_parallel" target.loc n] target (n + 1)
  | none =>
    .assign (temp c "const_mode" target.loc n) (.const (.str "r")) ::
      intConst (temp c "const_parallel" target.loc (n + 1)) 0 ::
      callCode c .openFile [name, temp c "const_mode" target.loc n,
        temp c "const_parallel" target.loc (n + 1)] target (n + 2)

def openTemps : Option Var → Nat
  | some _ => 3
  | none => 4

def createDatasetCode (c : FileScope) (target file name shape elem : Var) (rank n : Nat) :
    List Stmt :=
  intConst (temp c "h5_ndims" target.loc n) rank ::
    callCode c .createDataset [file, name, temp c "h5_ndims" target.loc n, shape, elem] target
      (n + 1)

/-- The rank under which a dataset is written. -/
def rankFor (c : FileScope) (facts : Facts) (target : Var) (d : DatasetRef) (source : Var) :
    Except FileError Nat :=
  match (facts.about target.name).shape with
  | some dims => .ok dims.length
  | none =>
    match c.declared? facts source with
    | some type => .ok type.rank
    | none => (c.introspect facts target d).map ArrayType.rank

theorem writeRank_eq (c : FileScope) (target : Var) (d : DatasetRef) (source : Var)
    (st : Expansion) :
    writeRank c target d source st =
      match rankFor c st.facts target d source with
      | .ok rank => .ok (rank, st)
      | .error e => .error (.failed e) := by
  have hfacts : facts st = .ok (st.facts, st) := rfl
  unfold writeRank rankFor
  simp only [bind, StateT.bind, hfacts, Except.bind]
  cases (st.facts.about target.name).shape with
  | some dims => rfl
  | none =>
      simp only
      cases c.declared? st.facts source with
      | some type => rfl
      | none =>
          simp only [ofExcept, StateT.lift, StateT.bind, bind]
          cases c.introspect st.facts target d <;> rfl

/-! ### One statement -/

/-- Right-hand sides that are neither recognised nor noted. -/
inductive Plain (st : Expansion) : Expr → Prop
  | global {m : ModuleName} (h : m ≠ .h5py) : Plain st (.global m)
  | alloc (shape : List Var) (elem : ElementType) : Plain st (.alloc shape elem)
  | frontEndAttr {base : Var} {name : String} (hb : (st.about base).isFrontEnd = true)
      (hn : name ≠ "File") : Plain st (.attr base name)
  | keys {base : Var} (hb : (st.about base).isFrontEnd = false)
      (hf : (st.about base).file.isSome) : Plain st (.attr base "keys")
  | attr {base : Var} {name : String} (hb : (st.about base).isFrontEnd = false)
      (hf : (st.about base).file = none) : Plain st (.attr base name)
  | constItem {base : Var} {index : Literal} {indexVar : Option Var}
      (hf : (st.about base).file = none) (hd : (st.about base).dataset = none) :
      Plain st (.constItem base index indexVar)
  | item {base index : Var} (hf : (st.about base).file = none)
      (hd : (st.about base).dataset = none) : Plain st (.item base index)

/-- What is known about a callee that is left alone. -/
structure NotRecognised (k : Known) : Prop where
  opens : k.opensFiles = false
  closes : k.closes = none
  makesDataset : k.makesDataset = none
  makesGroup : k.makesGroup = none

inductive Expands (c : FileScope) (st : Expansion) : Stmt → List Stmt → Expansion → Prop
  | frontEnd (t : Var) :
      Expands c st (.assign t (.global .h5py)) [.assign t (.global .h5py)]
        (st.learn t fun k => { k with isFrontEnd := true })
  | opener (t base : Var) (hb : (st.about base).isFrontEnd = true) :
      Expands c st (.assign t (.attr base "File")) [.assign t (.attr base "File")]
        (st.learn t fun k => { k with opensFiles := true })
  | method (t base : Var) (m : Method) (hb : (st.about base).isFrontEnd = false)
      (hf : (st.about base).file.isSome) :
      Expands c st (.assign t (.attr base m.name)) [.assign t (.attr base m.name)]
        (st.learn t (m.note base))
  | datasetVar (t base v : Var) (index : Literal) (hf : (st.about base).file.isSome) :
      Expands c st (.assign t (.constItem base index (some v)))
        [.assign t (.constItem base index (some v))]
        (Expansion.learn { st with facts := st.facts.noteConst v index } t
          fun k => { k with dataset := some ⟨base, v⟩ })
  | datasetKey (t base : Var) (key : String) (hf : (st.about base).file.isSome) :
      Expands c st (.assign t (.constItem base (.str key) none))
        [.assign (temp c "dset_name" t.loc st.nextTemp) (.const (.str key)),
          .assign t (.constItem base (.str key) none)]
        (Expansion.learn
          { st.skip 1 with
            facts := st.facts.noteConst (temp c "dset_name" t.loc st.nextTemp) (.str key) }
          t fun k => { k with dataset := some ⟨base, temp c "dset_name" t.loc st.nextTemp⟩ })
  | read (t base : Var) (index : Literal) (indexVar : Option Var) (d : DatasetRef)
      (type : ArrayType) (hf : (st.about base).file = none)
      (hd : (st.about base).dataset = some d) (hi : index.isFullSlice = true)
      (ht : c.resolve st.facts t d = .ok type) :
      Expands c st (.assign t (.constItem base index indexVar))
        (readCode c t d type st.nextTemp) (st.skip (readTemps type))
  | datasetItem (t base index : Var) (hf : (st.about base).file.isSome) :
      Expands c st (.assign t (.item base index)) [.assign t (.item base index)]
        (st.learn t fun k => { k with dataset := some ⟨base, index⟩ })
  | tuple (t : Var) (items : List Var) :
      Expands c st (.assign t (.tuple items)) [.assign t (.tuple items)]
        (st.learn t fun k => { k with tuple := some items })
  | copy (t source : Var) :
      Expands c st (.assign t (.copy source)) [.assign t (.copy source)]
        { st with facts := st.facts.noteCopy t source }
  | const (t : Var) (lit : Literal) :
      Expands c st (.assign t (.const lit)) [.assign t (.const lit)]
        { st with facts := st.facts.noteConst t lit }
  | plain (t : Var) (value : Expr) (h : Plain st value) :
      Expands c st (.assign t value) [.assign t value] st
  | openFile (t callee : Var) (args : List Var) (kws : List (String × Var)) (name : Var)
      (hc : (st.about callee).opensFiles = true)
      (hn : (args[0]? <|> kws.lookup "name") = some name) :
      Expands c st (.call t callee args kws)
        (openCode c t name st.nextTemp (args[1]? <|> kws.lookup "mode"))
        ((st.learn t fun k => { k with file := some (.named name) }).skip
          (openTemps (args[1]? <|> kws.lookup "mode")))
  | closeFile (t callee : Var) (args : List Var) (kws : List (String × Var)) (file : Var)
      (ho : (st.about callee).opensFiles = false)
      (hc : (st.about callee).closes = some file) :
      Expands c st (.call t callee args kws) (callCode c .closeFile [file] t st.nextTemp)
        (st.skip 2)
  | createDataset (t callee : Var) (args : List Var) (kws : List (String × Var))
      (file name shape elem : Var) (dims : List Var)
      (ho : (st.about callee).opensFiles = false) (hx : (st.about callee).closes = none)
      (hc : (st.about callee).makesDataset = some file)
      (hn : (args[0]? <|> kws.lookup "name") = some name)
      (hs : (args[1]? <|> kws.lookup "shape") = some shape)
      (he : (kws.lookup "dtype" <|> args[2]?) = some elem)
      (hd : (st.about shape).tuple = some dims) :
      Expands c st (.call t callee args kws)
        (createDatasetCode c t file name shape elem dims.length st.nextTemp)
        ((st.skip 3).learn t fun k => { k with dataset := some ⟨file, name⟩, shape := some dims })
  | createGroup (t callee : Var) (args : List Var) (kws : List (String × Var)) (file name : Var)
      (ho : (st.about callee).opensFiles = false) (hx : (st.about callee).closes = none)
      (hy : (st.about callee).makesDataset = none)
      (hc : (st.about callee).makesGroup = some file)
      (hn : (args[0]? <|> kws.lookup "name") = some name) :
      Expands c st (.call t callee args kws)
        (callCode c .createGroup [file, name] t st.nextTemp)
        ((st.learn t fun k => { k with file := some .group }).skip 2)
  | call (t callee : Var) (args : List Var) (kws : List (String × Var))
      (h : NotRecognised (st.about callee)) :
      Expands c st (.call t callee args kws) [.call t callee args kws] st
  | write (t : Var) (index : Literal) (value : Var) (d : DatasetRef) (rank : Nat)
      (hf : (st.about t).file = none) (hd : (st.about t).dataset = some d)
      (hi : index.isFullSlice = true) (hr : rankFor c st.facts t d value = .ok rank) :
      Expands c st (.store t index value)
        (transferCode c .write d rank (.attr value "shape") value t.loc st.nextTemp) (st.skip 7)
  | store (t : Var) (index : Literal) (value : Var) (hf : (st.about t).file = none)
      (hd : (st.about t).dataset = none) :
      Expands c st (.store t index value) [.store t index value] st

/-! ### The computation, opened once -/

theorem noteMethod_ok {c : FileScope} {t base : Var} {name : String} {st st' : Expansion}
    (h : noteMethod c t base name st = .ok ((), st')) :
    (∃ m : Method, name = m.name ∧ st' = st.learn t (m.note base)) ∨
      (name = "keys" ∧ st' = st) := by
  unfold noteMethod at h
  split at h
  · cases h; exact Or.inl ⟨.close, rfl, rfl⟩
  · cases h; exact Or.inl ⟨.createDataset, rfl, rfl⟩
  · cases h; exact Or.inl ⟨.createGroup, rfl, rfl⟩
  · cases h; exact Or.inr ⟨rfl, rfl⟩
  · rw [unsupported_apply] at h
    cases h

theorem expands_of_attr {c : FileScope} {t base : Var} {name : String} {st st' : Expansion}
    {out : List Stmt} (h : assign c t (.attr base name) st = .ok (out, st')) :
    Expands c st (.assign t (.attr base name)) out st' := by
  unfold assign at h
  simp only [bind_apply, about_apply] at h
  by_cases hb : (st.about base).isFrontEnd = true
  · rw [if_pos hb] at h
    by_cases hn : name = "File"
    · subst hn
      rw [if_pos rfl] at h
      cases h
      exact .opener t base hb
    · rw [if_neg hn] at h
      cases h
      exact .plain t _ (.frontEndAttr hb hn)
  · rw [if_neg hb] at h
    rw [Bool.not_eq_true] at hb
    by_cases hf : (st.about base).file.isSome = true
    · rw [if_pos hf, bind_apply] at h
      cases hm : noteMethod c t base name st with
      | error e => rw [hm] at h; cases h
      | ok r =>
          obtain ⟨u, s₁⟩ := r
          rw [hm] at h
          cases h
          rcases noteMethod_ok hm with ⟨m, rfl, rfl⟩ | ⟨rfl, rfl⟩
          · exact .method t base m hb hf
          · exact .plain t _ (.keys hb hf)
    · rw [if_neg hf] at h
      cases h
      have hf := Option.not_isSome_iff_eq_none.mp hf
      exact .plain t _ (.attr hb hf)

theorem expands_of_nameDataset {c : FileScope} {t base : Var} {index : Literal}
    {indexVar : Option Var} {st st' : Expansion} {out : List Stmt}
    (hf : (st.about base).file.isSome)
    (h : nameDataset c t base index indexVar st = .ok (out, st')) :
    Expands c st (.assign t (.constItem base index indexVar)) out st' := by
  unfold nameDataset at h
  cases indexVar with
  | some v =>
      cases h
      exact .datasetVar t base v index hf
  | none =>
      cases index with
      | str key =>
          cases h
          exact .datasetKey t base key hf
      | int v => cases h
      | float v => cases h
      | bool b => cases h
      | absent => cases h
      | slice s => cases h

theorem expands_of_constItem {c : FileScope} {t base : Var} {index : Literal}
    {indexVar : Option Var} {st st' : Expansion} {out : List Stmt}
    (h : assign c t (.constItem base index indexVar) st = .ok (out, st')) :
    Expands c st (.assign t (.constItem base index indexVar)) out st' := by
  unfold assign at h
  simp only [bind_apply, about_apply] at h
  by_cases hf : (st.about base).file.isSome = true
  · rw [if_pos hf] at h
    exact expands_of_nameDataset hf h
  · rw [if_neg hf] at h
    have hf := Option.not_isSome_iff_eq_none.mp hf
    cases hd : (st.about base).dataset with
    | none =>
        rw [hd] at h
        cases h
        exact .plain t _ (.constItem hf hd)
    | some d =>
        rw [hd] at h
        simp only at h
        by_cases hi : index.isFullSlice = true
        · rw [if_pos hi] at h
          obtain ⟨type, htype, rfl, rfl⟩ := read_eq_ok h
          exact .read t base index indexVar d type hf hd hi htype
        · rw [if_neg hi, unsupported_apply] at h
          cases h

theorem expands_of_item {c : FileScope} {t base index : Var} {st st' : Expansion}
    {out : List Stmt} (h : assign c t (.item base index) st = .ok (out, st')) :
    Expands c st (.assign t (.item base index)) out st' := by
  unfold assign at h
  simp only [bind_apply, about_apply] at h
  by_cases hf : (st.about base).file.isSome = true
  · rw [if_pos hf] at h
    cases h
    exact .datasetItem t base index hf
  · rw [if_neg hf] at h
    have hf := Option.not_isSome_iff_eq_none.mp hf
    by_cases hd : (st.about base).dataset.isSome = true
    · rw [if_pos hd, bind_apply, unsupported_apply] at h
      cases h
    · rw [if_neg hd] at h
      have hd := Option.not_isSome_iff_eq_none.mp hd
      cases h
      exact .plain t _ (.item hf hd)

theorem expands_of_assign {c : FileScope} {t : Var} {value : Expr} {st st' : Expansion}
    {out : List Stmt} (h : assign c t value st = .ok (out, st')) :
    Expands c st (.assign t value) out st' := by
  cases value with
  | global m =>
      cases m with
      | h5py => cases h; exact .frontEnd t
      | ioAbi => cases h; exact .plain t _ (.global (by simp))
      | other name => cases h; exact .plain t _ (.global (by simp))
  | attr base name => exact expands_of_attr h
  | constItem base index indexVar => exact expands_of_constItem h
  | item base index => exact expands_of_item h
  | tuple items => cases h; exact .tuple t items
  | const lit => cases h; exact .const t lit
  | copy source => cases h; exact .copy t source
  | alloc shape elem => cases h; exact .plain t _ (.alloc shape elem)

/-! ### Calls and stores -/

theorem require_bind_ok {β : Type} {c : FileScope} {loc : Loc} {call arg : String}
    {o : Option Var} {g : Var → Expand β} {st st' : Expansion} {b : β}
    (h : (require c loc call arg o >>= g) st = .ok (b, st')) :
    ∃ v, o = some v ∧ g v st = .ok (b, st') := by
  cases o with
  | none => cases h
  | some v => exact ⟨v, rfl, h⟩

theorem mem_of_lookup {kws : List (String × Var)} {name : String} {v : Var}
    (h : kws.lookup name = some v) : v ∈ kws.map Prod.snd := by
  obtain ⟨l, r, rfl, -⟩ := List.lookup_eq_some_iff.mp h
  simp

theorem mem_of_argument {args : List Var} {kws : List (String × Var)} {i : Nat} {name : String}
    {v : Var} (h : (args[i]? <|> kws.lookup name) = some v) : v ∈ args ++ kws.map Prod.snd := by
  cases hpos : args[i]? with
  | none =>
      rw [hpos] at h
      exact List.mem_append_right _ (mem_of_lookup h)
  | some w =>
      rw [hpos] at h
      cases h
      exact List.mem_append_left _ (List.mem_of_getElem? hpos)

theorem mem_of_keyword {args : List Var} {kws : List (String × Var)} {i : Nat} {name : String}
    {v : Var} (h : (kws.lookup name <|> args[i]?) = some v) : v ∈ args ++ kws.map Prod.snd := by
  cases hkw : kws.lookup name with
  | none =>
      rw [hkw] at h
      exact List.mem_append_left _ (List.mem_of_getElem? h)
  | some w =>
      rw [hkw] at h
      cases h
      exact List.mem_append_right _ (mem_of_lookup hkw)

theorem openFile_ok {c : FileScope} {t : Var} {args : List Var} {kws : List (String × Var)}
    {st st' : Expansion} {out : List Stmt} (h : openFile c t args kws st = .ok (out, st')) :
    ∃ name, (args[0]? <|> kws.lookup "name") = some name ∧
      out = openCode c t name st.nextTemp (args[1]? <|> kws.lookup "mode") ∧
      st' = (st.learn t fun k => { k with file := some (.named name) }).skip
        (openTemps (args[1]? <|> kws.lookup "mode")) := by
  unfold openFile at h
  obtain ⟨name, hn, h⟩ := require_bind_ok h
  refine ⟨name, hn, ?_⟩
  cases hm : (args[1]? <|> kws.lookup "mode") with
  | some mode =>
      rw [hm] at h
      cases h
      exact ⟨rfl, rfl⟩
  | none =>
      rw [hm] at h
      cases h
      exact ⟨rfl, rfl⟩

theorem createDataset_ok {c : FileScope} {t file : Var} {args : List Var}
    {kws : List (String × Var)} {st st' : Expansion} {out : List Stmt}
    (h : createDataset c t file args kws st = .ok (out, st')) :
    ∃ name shape elem dims, (args[0]? <|> kws.lookup "name") = some name ∧
      (args[1]? <|> kws.lookup "shape") = some shape ∧
      (kws.lookup "dtype" <|> args[2]?) = some elem ∧ (st.about shape).tuple = some dims ∧
      out = createDatasetCode c t file name shape elem dims.length st.nextTemp ∧
      st' = (st.skip 3).learn t
        fun k => { k with dataset := some ⟨file, name⟩, shape := some dims } := by
  unfold createDataset at h
  obtain ⟨name, hn, h⟩ := require_bind_ok h
  obtain ⟨shape, hs, h⟩ := require_bind_ok h
  obtain ⟨elem, he, h⟩ := require_bind_ok h
  simp only [bind_apply, about_apply] at h
  cases hd : (st.about shape).tuple with
  | none =>
      rw [hd] at h
      cases h
  | some dims =>
      rw [hd] at h
      cases h
      exact ⟨name, shape, elem, dims, hn, hs, he, hd, rfl, rfl⟩

theorem createGroup_ok {c : FileScope} {t file : Var} {args : List Var}
    {kws : List (String × Var)} {st st' : Expansion} {out : List Stmt}
    (h : createGroup c t file args kws st = .ok (out, st')) :
    ∃ name, (args[0]? <|> kws.lookup "name") = some name ∧
      out = callCode c .createGroup [file, name] t st.nextTemp ∧
      st' = (st.learn t fun k => { k with file := some .group }).skip 2 := by
  unfold createGroup at h
  obtain ⟨name, hn, h⟩ := require_bind_ok h
  cases h
  exact ⟨name, hn, rfl, rfl⟩

theorem expands_of_call {c : FileScope} {t callee : Var} {args : List Var}
    {kws : List (String × Var)} {st st' : Expansion} {out : List Stmt}
    (h : call c t callee args kws st = .ok (out, st')) :
    Expands c st (.call t callee args kws) out st' := by
  unfold call at h
  simp only [bind_apply, about_apply] at h
  by_cases ho : (st.about callee).opensFiles = true
  · rw [if_pos ho] at h
    obtain ⟨name, hn, rfl, rfl⟩ := openFile_ok h
    exact .openFile t callee args kws name ho hn
  · rw [if_neg ho] at h
    rw [Bool.not_eq_true] at ho
    cases hx : (st.about callee).closes with
    | some file =>
        rw [hx] at h
        cases h
        exact .closeFile t callee args kws file ho hx
    | none =>
        rw [hx] at h
        simp only at h
        cases hy : (st.about callee).makesDataset with
        | some file =>
            rw [hy] at h
            obtain ⟨name, shape, elem, dims, hn, hs, he, hd, rfl, rfl⟩ := createDataset_ok h
            exact .createDataset t callee args kws file name shape elem dims ho hx hy hn hs he hd
        | none =>
            rw [hy] at h
            simp only at h
            cases hz : (st.about callee).makesGroup with
            | some file =>
                rw [hz] at h
                obtain ⟨name, hn, rfl, rfl⟩ := createGroup_ok h
                exact .createGroup t callee args kws file name ho hx hy hz hn
            | none =>
                rw [hz] at h
                cases h
                exact .call t callee args kws ⟨ho, hx, hy, hz⟩

theorem expands_of_store {c : FileScope} {t value : Var} {index : Literal} {st st' : Expansion}
    {out : List Stmt} (h : store c t index value st = .ok (out, st')) :
    Expands c st (.store t index value) out st' := by
  unfold store at h
  simp only [bind_apply, about_apply] at h
  by_cases hf : (st.about t).file.isSome = true
  · rw [if_pos hf, unsupported_apply] at h
    cases h
  · rw [if_neg hf] at h
    have hf := Option.not_isSome_iff_eq_none.mp hf
    cases hd : (st.about t).dataset with
    | none =>
        rw [hd] at h
        cases h
        exact .store t index value hf hd
    | some d =>
        rw [hd] at h
        simp only at h
        by_cases hi : index.isFullSlice = true
        · rw [if_pos hi] at h
          unfold write at h
          obtain ⟨rank, s₁, hr, h⟩ := bind_eq_ok h
          rw [writeRank_eq] at hr
          cases hrank : rankFor c st.facts t d value with
          | error e => rw [hrank] at hr; cases hr
          | ok r =>
              rw [hrank] at hr
              cases hr
              obtain ⟨u, s₂, hroom, h⟩ := bind_eq_ok h
              cases reserveVars_eq_ok hroom
              rw [transfer_eq] at h
              cases h
              exact .write t index value d rank hf hd hi hrank
        · rw [if_neg hi, unsupported_apply] at h
          cases h

/-- Whatever the expansion does to a statement is one of the ways above. -/
theorem expands_of_stmt {c : FileScope} {s : Stmt} {st st' : Expansion} {out : List Stmt}
    (h : stmt c s st = .ok (out, st')) : Expands c st s out st' := by
  cases s with
  | assign t value => exact expands_of_assign h
  | call t callee args kws => exact expands_of_call h
  | store t index value => exact expands_of_store h

/-! ### Rows of statements and blocks -/

theorem stmts_cons_apply (c : FileScope) (s : Stmt) (ss : List Stmt) (st : Expansion) :
    stmts c (s :: ss) st =
      match stmt c s st with
      | .error e => .error e
      | .ok (out, st₁) =>
        match stmts c ss st₁ with
        | .error e => .error e
        | .ok (outs, st₂) => .ok (out ++ outs, st₂) := by
  rw [stmts, bind_apply]
  rcases stmt c s st with e | ⟨out, st₁⟩
  · rfl
  · simp only [bind_apply]
    rcases stmts c ss st₁ with e | ⟨outs, st₂⟩ <;> rfl

theorem stmts_cons_ok {c : FileScope} {s : Stmt} {ss out : List Stmt} {st st' : Expansion}
    (h : stmts c (s :: ss) st = .ok (out, st')) :
    ∃ o₁ s₁ o₂, stmt c s st = .ok (o₁, s₁) ∧ stmts c ss s₁ = .ok (o₂, st') ∧ out = o₁ ++ o₂ := by
  rw [stmts] at h
  obtain ⟨o₁, s₁, hs, h⟩ := bind_eq_ok h
  obtain ⟨o₂, s₂, hss, h⟩ := bind_eq_ok h
  cases h
  exact ⟨o₁, s₁, o₂, hs, hss, rfl⟩

theorem stmts_append_eq {c : FileScope} {us us' : List Stmt} {st st₁ : Expansion}
    (hu : stmts c us st = .ok (us', st₁)) (vs : List Stmt) :
    stmts c (us ++ vs) st = (stmts c vs st₁).map fun r => (us' ++ r.1, r.2) := by
  induction us generalizing us' st with
  | nil =>
      cases hu
      rw [List.nil_append]
      cases stmts c vs st₁ <;> rfl
  | cons u us ih =>
      obtain ⟨o₁, s₁, o₂, hs, hus, rfl⟩ := stmts_cons_ok hu
      rw [List.cons_append, stmts_cons_apply, hs]
      simp only [ih hus]
      cases stmts c vs st₁ with
      | error e => rfl
      | ok r => simp only [Except.map, List.append_assoc]

theorem stmts_append {c : FileScope} {us vs us' vs' : List Stmt} {st st₁ st₂ : Expansion}
    (hu : stmts c us st = .ok (us', st₁)) (hv : stmts c vs st₁ = .ok (vs', st₂)) :
    stmts c (us ++ vs) st = .ok (us' ++ vs', st₂) := by
  rw [stmts_append_eq hu, hv]
  rfl

def row (c : FileScope) : List Stmt → Expand (List (List Stmt))
  | [] => return []
  | s :: ss => do return (← stmt c s) :: (← row c ss)

theorem row_of_stmts {c : FileScope} {ss out : List Stmt} {st st' : Expansion}
    (h : stmts c ss st = .ok (out, st')) :
    ∃ outs, row c ss st = .ok (outs, st') ∧ out = outs.flatten := by
  induction ss generalizing st out with
  | nil =>
      cases h
      exact ⟨[], rfl, rfl⟩
  | cons s ss ih =>
      obtain ⟨o₁, s₁, o₂, hs, hss, rfl⟩ := stmts_cons_ok h
      obtain ⟨outs, houts, rfl⟩ := ih hss
      refine ⟨o₁ :: outs, ?_, rfl⟩
      rw [row]
      simp only [bind_apply, hs, houts]
      rfl

/-- The statements of a row, each in the state that the ones before it left. -/
inductive ExpandsRow (c : FileScope) :
    Expansion → List Stmt → List (List Stmt) → Expansion → Prop
  | nil (st : Expansion) : ExpandsRow c st [] [] st
  | cons {st st₁ st₂ : Expansion} {s : Stmt} {ss out : List Stmt} {outs : List (List Stmt)}
      (hs : Expands c st s out st₁) (hss : ExpandsRow c st₁ ss outs st₂) :
      ExpandsRow c st (s :: ss) (out :: outs) st₂

theorem expandsRow_of_row {c : FileScope} {ss : List Stmt} {outs : List (List Stmt)}
    {st st' : Expansion} (h : row c ss st = .ok (outs, st')) : ExpandsRow c st ss outs st' := by
  induction ss generalizing st outs with
  | nil =>
      cases h
      exact .nil _
  | cons s ss ih =>
      rw [row] at h
      obtain ⟨out, s₁, hs, h₁⟩ := bind_eq_ok h
      obtain ⟨rest, s₂, hss, h₂⟩ := bind_eq_ok h₁
      cases h₂
      exact .cons (expands_of_stmt hs) (ih hss)

theorem block_apply (c : FileScope) (b : Block) (st : Expansion) :
    block c b st =
      match stmts c b.body { st with facts := st.facts.noteCopies b.body } with
      | .error e => .error e
      | .ok (out, st') => .ok ({ b with body := out }, st') := by
  rw [block, bind_apply, modifyFacts_apply]
  simp only [bind_apply]
  rcases stmts c b.body { st with facts := st.facts.noteCopies b.body } with e | ⟨out, st'⟩ <;> rfl

theorem block_ok {c : FileScope} {b b' : Block} {st st' : Expansion}
    (h : block c b st = .ok (b', st')) :
    ∃ out, stmts c b.body { st with facts := st.facts.noteCopies b.body } = .ok (out, st') ∧
      b' = { b with body := out } := by
  rw [block, bind_apply, modifyFacts_apply] at h
  obtain ⟨out, s₁, hs, h⟩ := bind_eq_ok h
  cases h
  exact ⟨out, hs, rfl⟩

theorem blocks_getElem?_of_not_mem {c : FileScope} {bs bs' : Array Block} {ls : List Label}
    {l : Label} {st st' : Expansion}
    (h : blocks c bs ls st = .ok (bs', st')) (hl : l ∉ ls) : bs'[l]? = bs[l]? := by
  induction ls generalizing bs st with
  | nil =>
      cases h
      rfl
  | cons k ls ih =>
      rw [List.mem_cons, not_or] at hl
      rw [blocks] at h
      cases hk : bs[k]? with
      | none =>
          rw [hk] at h
          exact ih h hl.2
      | some b =>
          rw [hk] at h
          obtain ⟨b', s₁, -, h⟩ := bind_eq_ok h
          rw [ih h hl.2, Array.getElem?_setIfInBounds_ne (Ne.symm hl.1)]

end Expand

namespace Function

theorem expandFiles_eq (f : Function) (catalog : Option Inspector) :
    f.expandFiles catalog =
      (Expand.blocks (f.fileScope catalog) f.blocks f.order { nextTemp := f.nextTemp }).map
        fun r => { f with blocks := r.1, nextTemp := r.2.nextTemp }.withoutDead := by
  unfold expandFiles
  simp only [StateT.run]
  cases Expand.blocks (f.fileScope catalog) f.blocks f.order { nextTemp := f.nextTemp } <;> rfl

/-- What an expansion returns: the blocks as the pass over them left them, with
what became dead taken out. -/
theorem expandFiles_ok {f g : Function} {catalog : Option Inspector}
    (h : f.expandFiles catalog = .ok g) :
    ∃ bs st, Expand.blocks (f.fileScope catalog) f.blocks f.order { nextTemp := f.nextTemp } =
        .ok (bs, st) ∧ g = { f with blocks := bs, nextTemp := st.nextTemp }.withoutDead := by
  rw [expandFiles_eq] at h
  rcases hb : Expand.blocks (f.fileScope catalog) f.blocks f.order
      { nextTemp := f.nextTemp } with e | ⟨bs, st⟩
  · rw [hb] at h
    cases h
  · rw [hb] at h
    cases h
    exact ⟨bs, st, rfl, rfl⟩

theorem exists_expandFiles {f : Function} {catalog : Option Inspector} {ls : List Label}
    (horder : f.order = ls)
    (h : (Expand.blocks (f.fileScope catalog) f.blocks ls { nextTemp := f.nextTemp }).isOk) :
    ∃ g, f.expandFiles catalog = .ok g := by
  rw [expandFiles_eq, horder]
  revert h
  cases Expand.blocks (f.fileScope catalog) f.blocks ls { nextTemp := f.nextTemp } with
  | error e => exact nofun
  | ok r => exact fun _ => ⟨_, rfl⟩

def failure? {ε α : Type} : Except ε α → Option ε
  | .error e => some e
  | .ok _ => none

theorem expandFiles_eq_error {f : Function} {catalog : Option Inspector} {ls : List Label}
    {e : Stop FileError} (horder : f.order = ls)
    (h : failure? (Expand.blocks (f.fileScope catalog) f.blocks ls { nextTemp := f.nextTemp }) =
      some e) :
    f.expandFiles catalog = .error e := by
  rw [expandFiles_eq, horder]
  revert h
  cases Expand.blocks (f.fileScope catalog) f.blocks ls { nextTemp := f.nextTemp } with
  | error e' =>
      intro h
      cases h
      rfl
  | ok r =>
      intro h
      cases h

/-- Blocks and what stays of them are found by evaluation. -/
theorem exists_expandFiles_blocks {f : Function} {catalog : Option Inspector} {ls : List Label}
    {kept : Array Block} (rounds : Nat) (bs : Array Block) (horder : f.order = ls)
    (hbs : (Expand.blocks (f.fileScope catalog) f.blocks ls { nextTemp := f.nextTemp }).toOption.map
      Prod.fst = some bs)
    (hkept : ((closeWithin rounds (Std.TreeSet.ofList (bs.toList.flatMap Block.roots))
      (bs.toList.flatMap Block.dependencies)).map
        fun needed => bs.map (Block.withoutDead needed)) = some kept) :
    ∃ g, f.expandFiles catalog = .ok g ∧ g.blocks = kept ∧ g.params = f.params ∧
      g.entry = f.entry := by
  rw [expandFiles_eq, horder]
  cases hrun : Expand.blocks (f.fileScope catalog) f.blocks ls { nextTemp := f.nextTemp } with
  | error err =>
      rw [hrun] at hbs
      cases hbs
  | ok r =>
      rw [hrun] at hbs
      cases hbs
      exact ⟨_, rfl, withoutDead_blocks_of_closeWithin hkept, rfl, rfl⟩

end Function

end SpmdArrays
