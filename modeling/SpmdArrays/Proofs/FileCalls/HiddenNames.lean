import SpmdArrays.Proofs.FileCalls.NeededNames
import SpmdArrays.Proofs.FileCalls.Sites

/-!
Names without a value. The front end, its opening function, methods and datasets named
through a handle are hidden: nothing that stays of a function whose file calls were made
positional looks at them. The statements that assign hidden names may therefore be
dropped beforehand, and what is left of the function in the end is the same.
-/

namespace SpmdArrays

/-- The name stands for something of the front end and has no value. -/
def Known.isHidden (k : Known) : Bool :=
  k.isFrontEnd || k.opensFiles || k.closes.isSome || k.makesDataset.isSome ||
    k.makesGroup.isSome || (k.dataset.isSome && k.shape.isNone)

namespace Expand

def Sense.isHidden : Sense → Bool
  | .frontEnd | .opener | .method .. | .dataset _ => true
  | .ordinary _ | .file _ | .created .. => false

theorem Is.isHidden_eq {k : Known} {s : Sense} (h : Is k s) : k.isHidden = s.isHidden := by
  have hrole : k.role.isHidden = s.isHidden := by
    rw [h]
    cases s with
    | method m file => cases m <;> rfl
    | _ => rfl
  exact hrole

theorem Sense.role_of_isHidden {s : Sense} (h : s.isHidden = true) :
    ∃ r, s.role? = some r ∧ r ≠ .handle := by
  cases s with
  | frontEnd => exact ⟨_, rfl, nofun⟩
  | opener => exact ⟨_, rfl, nofun⟩
  | method m file => exact ⟨_, rfl, nofun⟩
  | dataset d => exact ⟨_, rfl, nofun⟩
  | ordinary dims => cases h
  | file origin => cases h
  | created d dims => cases h

/-! ### What the statements that are put in look at -/

section

variable {c : FileScope} {n : Nat} {u : Stmt} {v : Var}

theorem uses_loadCode {e : EntryPoint} {loc : Loc} (hu : u ∈ loadCode c e loc n)
    (hv : v ∈ u.uses) : GeneratedFrom n v.name := by
  simp only [loadCode, List.mem_cons, List.not_mem_nil, or_false] at hu
  rcases hu with rfl | rfl
  · cases hv
  · cases List.mem_singleton.mp hv
    exact generatedFrom_temp _ _ _ (Nat.le_refl n)

theorem uses_callCode {e : EntryPoint} {args : List Var} {t : Var}
    (hu : u ∈ callCode c e args t n) (hv : v ∈ u.uses) : GeneratedFrom n v.name ∨ v ∈ args := by
  rcases List.mem_append.mp hu with hu | hu
  · exact Or.inl (uses_loadCode hu hv)
  · cases List.mem_singleton.mp hu
    rcases List.mem_cons.mp hv with rfl | hv
    · exact Or.inl (generatedFrom_temp _ _ _ (Nat.le_succ n))
    · exact Or.inr (by simpa using hv)

theorem uses_transferCode {e : EntryPoint} {d : DatasetRef} {rank : Nat} {counts : Expr}
    {buffer : Var} {loc : Loc} (hu : u ∈ transferCode c e d rank counts buffer loc n)
    (hv : v ∈ u.uses) :
    GeneratedFrom n v.name ∨ v ∈ [d.file, d.name, buffer] ∨ v ∈ counts.uses := by
  have htemp : ∀ stem k, n ≤ k → GeneratedFrom n (temp c stem loc k).name :=
    fun stem k hk => generatedFrom_temp _ _ _ hk
  rcases List.mem_append.mp hu with hu | hu
  · simp only [List.mem_cons, List.not_mem_nil, or_false] at hu
    rcases hu with rfl | rfl | rfl | rfl
    · cases hv
    · cases hv
    · cases List.eq_of_mem_replicate hv
      exact Or.inl (htemp _ _ (by omega))
    · exact Or.inr (Or.inr hv)
  · rcases uses_callCode hu hv with hgen | hv
    · exact Or.inl (hgen.mono (by omega))
    · simp only [List.mem_cons, List.not_mem_nil, or_false] at hv ⊢
      rcases hv with rfl | rfl | rfl | rfl | rfl | rfl | rfl
      · exact Or.inr (Or.inl (Or.inl rfl))
      · exact Or.inr (Or.inl (Or.inr (Or.inl rfl)))
      · exact Or.inl (htemp _ _ (by omega))
      · exact Or.inl (htemp _ _ (by omega))
      · exact Or.inl (htemp _ _ (by omega))
      · exact Or.inl (htemp _ _ (by omega))
      · exact Or.inr (Or.inl (Or.inr (Or.inr rfl)))

theorem uses_extentCode {sizeEntry : Var} {d : DatasetRef} {loc : Loc} {dims : List Nat}
    (hu : u ∈ extentCode c sizeEntry d loc dims n) (hv : v ∈ u.uses) :
    GeneratedFrom n v.name ∨ v ∈ [sizeEntry, d.file, d.name] := by
  induction dims generalizing n with
  | nil => cases hu
  | cons dim dims ih =>
      rcases List.mem_cons.mp hu with rfl | hu
      · cases hv
      · rcases List.mem_cons.mp hu with rfl | hu
        · simp only [Stmt.uses, List.map_nil, List.append_nil, List.mem_cons, List.not_mem_nil,
            or_false] at hv ⊢
          rcases hv with rfl | rfl | rfl | rfl
          · exact Or.inr (Or.inl rfl)
          · exact Or.inr (Or.inr (Or.inl rfl))
          · exact Or.inr (Or.inr (Or.inr rfl))
          · exact Or.inl (generatedFrom_temp _ _ _ (Nat.le_refl n))
        · exact (ih hu).imp_left fun hgen => hgen.mono (by omega)

theorem uses_readCode {t : Var} {d : DatasetRef} {type : ArrayType}
    (hu : u ∈ readCode c t d type n) (hv : v ∈ u.uses) :
    GeneratedFrom n v.name ∨ v ∈ [d.file, d.name, t] := by
  have hextents : ∀ v ∈ extentVars c t.loc (List.range type.rank) (n + 2),
      GeneratedFrom n v.name := by
    intro v hv
    obtain ⟨k, hk, -, hname⟩ := mem_extentVars hv
    exact ⟨"h5_size", k, by omega, hname⟩
  simp only [readCode, List.append_assoc, List.mem_append] at hu
  rcases hu with hu | hu | hu | hu
  · exact Or.inl (uses_loadCode hu hv)
  · rcases uses_extentCode hu hv with hgen | hv
    · exact Or.inl (hgen.mono (by omega))
    · simp only [List.mem_cons, List.not_mem_nil, or_false] at hv ⊢
      rcases hv with rfl | rfl | rfl
      · exact Or.inl (generatedFrom_temp _ _ _ (by omega))
      · exact Or.inr (Or.inl rfl)
      · exact Or.inr (Or.inr (Or.inl rfl))
  · cases List.mem_singleton.mp hu
    exact Or.inl (hextents v hv)
  · rcases uses_transferCode hu hv with hgen | hv | hv
    · exact Or.inl (hgen.mono (by omega))
    · exact Or.inr hv
    · exact Or.inl (hextents v hv)

theorem uses_openCode {t name : Var} {mode : Option Var} (hu : u ∈ openCode c t name n mode)
    (hv : v ∈ u.uses) : GeneratedFrom n v.name ∨ v = name ∨ mode = some v := by
  cases mode with
  | some mode =>
      rcases List.mem_cons.mp hu with rfl | hu
      · cases hv
      · rcases uses_callCode hu hv with hgen | hv
        · exact Or.inl (hgen.mono (by omega))
        · simp only [List.mem_cons, List.not_mem_nil, or_false] at hv
          rcases hv with rfl | rfl | rfl
          · exact Or.inr (Or.inl rfl)
          · exact Or.inr (Or.inr rfl)
          · exact Or.inl (generatedFrom_temp _ _ _ (Nat.le_refl n))
  | none =>
      rcases List.mem_cons.mp hu with rfl | hu
      · cases hv
      · rcases List.mem_cons.mp hu with rfl | hu
        · cases hv
        · rcases uses_callCode hu hv with hgen | hv
          · exact Or.inl (hgen.mono (by omega))
          · simp only [List.mem_cons, List.not_mem_nil, or_false] at hv
            rcases hv with rfl | rfl | rfl
            · exact Or.inr (Or.inl rfl)
            · exact Or.inl (generatedFrom_temp _ _ _ (Nat.le_refl n))
            · exact Or.inl (generatedFrom_temp _ _ _ (Nat.le_succ n))

theorem uses_createDatasetCode {t file name shape elem : Var} {rank : Nat}
    (hu : u ∈ createDatasetCode c t file name shape elem rank n) (hv : v ∈ u.uses) :
    GeneratedFrom n v.name ∨ v ∈ [file, name, shape, elem] := by
  rcases List.mem_cons.mp hu with rfl | hu
  · cases hv
  · rcases uses_callCode hu hv with hgen | hv
    · exact Or.inl (hgen.mono (by omega))
    · simp only [List.mem_cons, List.not_mem_nil, or_false] at hv ⊢
      rcases hv with rfl | rfl | rfl | rfl | rfl
      · exact Or.inr (Or.inl rfl)
      · exact Or.inr (Or.inr (Or.inl rfl))
      · exact Or.inl (generatedFrom_temp _ _ _ (Nat.le_refl n))
      · exact Or.inr (Or.inr (Or.inr (Or.inl rfl)))
      · exact Or.inr (Or.inr (Or.inr (Or.inr rfl)))

end

/-! ### Names that can be looked at -/

section

variable {f : Function} {facts : Facts} {l : Label} {front : List Stmt} {st : Expansion}
  (h : Site f facts l front st)

include h

theorem Site.visible_temp (hnames : f.NamesApart) {x : String}
    (hx : GeneratedFrom f.nextTemp x) : (facts.about x).isHidden = false := by
  have hnot : x ∉ definedNames f.stmts := fun hmem => hnames.defined x hmem hx
  have hrole : (facts.about x).role = {} :=
    (h.final x fun hmem => absurd hmem hnot).symm.trans (h.unassigned x hnot)
  exact (is_ordinary hrole).isHidden_eq

theorem Site.visible_file {x : String} (hx : f.Given l front x) {origin : FileOrigin}
    (ho : Is (st.facts.about x) (.file origin)) : (facts.about x).isHidden = false := by
  have hfinal : Is (facts.about x) (.file origin) := (h.final x hx).symm.trans ho
  exact hfinal.isHidden_eq

theorem Site.visible_operand (hplace : f.FrontEndInPlace) {v : Var} (hv : f.Given l front v.name)
    {u : Stmt} (hu : u ∈ f.stmts) (hmem : v ∈ u.operands) :
    (facts.about v.name).isHidden = false := by
  obtain ⟨sense, hsense, -, hground⟩ := h.sense_of_given hv
  rw [hsense.isHidden_eq, Bool.eq_false_iff]
  intro hhidden
  obtain ⟨r, hr, hne⟩ := Sense.role_of_isHidden hhidden
  exact hne (hplace.operand u hu v hmem r (hground.role r hr))

theorem Site.visible_term (hf : f.Ssa) (hplace : f.FrontEndInPlace) {b : Block}
    (hb : f.block? l = some b) (hfront : front = b.body) {v : Var} (hv : v ∈ b.term.uses) :
    (facts.about v.name).isHidden = false := by
  subst hfront
  obtain ⟨sense, hsense, -, hground⟩ := h.sense_of_given (hf.termUses l b hb v hv)
  rw [hsense.isHidden_eq, Bool.eq_false_iff]
  intro hhidden
  obtain ⟨r, hr, hne⟩ := Sense.role_of_isHidden hhidden
  exact hne (hplace.term b (Function.mem_blocks_of_block? hb) v hv r (hground.role r hr))

theorem Site.visible_refs (hf : f.Begins l front) (hnames : f.NamesApart)
    (hplace : f.FrontEndInPlace) {x : String} (hx : f.Given l front x) {sense : Sense}
    (hground : Grounded f st x sense) :
    (∀ y, sense.file? = some y → (facts.about y.name).isHidden = false) ∧
      ∀ z, sense.key? = some z → (facts.about z.name).isHidden = false := by
  constructor
  · intro y hy
    obtain ⟨hfollows, -, origin, ho⟩ := hground.file y hy
    exact h.visible_file (hfollows l front hf hx) ho
  · intro z hz
    rcases hground.key z hz with ⟨hfollows, u, hu, hmem⟩ | ⟨hgen, -⟩
    · exact h.visible_operand hplace (hfollows l front hf hx) hu hmem
    · exact h.visible_temp hnames hgen

end

/-- The test that drops the assignments to hidden names. -/
def staysVisible (facts : Facts) : Stmt → Bool
  | .assign t _ => !(facts.about t.name).isHidden
  | _ => true

section

variable {f : Function} {catalog : Option Inspector} {facts : Facts} {l : Label}
  {front out : List Stmt} {s : Stmt} {st st' : Expansion} (hf : f.Ssa) (hnames : f.NamesApart)
  (hplace : f.FrontEndInPlace) (h : Turn f catalog facts l front s st out st')

include hf hplace h in
/-- A hidden name stands in front of a statement of the table only. -/
theorem Turn.head_hidden {v : Var} (hv : s.head? = some v)
    (hhidden : (facts.about v.name).isHidden = true) :
    ∃ sense r, Is (st.facts.about v.name) sense ∧ sense.isHidden = true ∧ sense.role? = some r ∧
      s.inTable r = true := by
  obtain ⟨sense, hsense, hsense', hground⟩ := h.sense_of_uses hf (Stmt.uses_of_head hv)
  rw [hsense.isHidden_eq] at hhidden
  obtain ⟨r, hr, -⟩ := Sense.role_of_isHidden hhidden
  exact ⟨sense, r, hsense', hhidden, hr,
    hplace.head s h.begins.mem_stmts v hv r (hground.role r hr)⟩

include hf hplace h in
theorem Turn.visible_operand {v : Var} (hv : v ∈ s.operands) :
    (facts.about v.name).isHidden = false :=
  h.before.visible_operand hplace (hf.given_of_uses h.begins (Stmt.uses_of_operand hv))
    h.begins.mem_stmts hv

include h in
theorem Turn.target_visible {t : Var} (ht : s.target? = some t) {sense : Sense}
    (hsense : Is (st'.facts.about t.name) sense) (hstay : !(facts.about t.name).isHidden) :
    sense.isHidden = false := by
  have hfinal : Is (facts.about t.name) sense := (h.final_target ht).trans hsense
  rw [← hfinal.isHidden_eq]
  simpa using hstay

include hf hplace h in
theorem Turn.visible_of_head
    (hhead : ∀ v, s.head? = some v → (facts.about v.name).isHidden = false) {v : Var}
    (hv : v ∈ s.uses) : (facts.about v.name).isHidden = false :=
  (Stmt.head_or_operand hv).elim (hhead v) (h.visible_operand hf hplace)

include hf hplace h in
theorem Turn.visible_head {v : Var} (hv : s.head? = some v)
    (hsense : ∀ sense r, Is (st.facts.about v.name) sense → sense.role? = some r →
      s.inTable r = true → sense.isHidden = false) : (facts.about v.name).isHidden = false := by
  rw [Bool.eq_false_iff]
  intro hhidden
  obtain ⟨sense, r, his, hh, hr, htable⟩ := h.head_hidden hf hplace hv hhidden
  rw [hsense sense r his hr htable] at hh
  cases hh

include hf hplace h in
theorem Turn.visible_plain {t : Var} {value : Expr} (hs : s = .assign t value)
    (hplain : Plain st value) {v : Var} (hv : v ∈ s.uses) :
    (facts.about v.name).isHidden = false := by
  refine h.visible_of_head hf hplace (fun v hhead => ?_) hv
  refine h.visible_head hf hplace hhead fun sense r his hr htable => ?_
  subst hs
  cases hplain with
  | global hm => cases hhead
  | alloc shape elem => cases hhead
  | frontEndAttr hb hn =>
      cases hhead
      cases his.frontEnd_eq hb
      cases hr
      exact absurd (of_decide_eq_true htable) hn
  | keys hb hfile =>
      cases hhead
      obtain ⟨origin, rfl⟩ := his.exists_file_eq hfile
      rfl
  | attr hb hfile =>
      cases hhead
      cases sense with
      | frontEnd => exact absurd ((congrArg Known.isFrontEnd his).symm.trans hb) (by decide)
      | opener => cases hr; cases htable
      | method m y => cases hr; cases htable
      | dataset d => cases hr; cases htable
      | _ => rfl
  | constItem hfile hd =>
      cases hhead
      cases sense with
      | frontEnd => cases hr; cases htable
      | opener => cases hr; cases htable
      | method m y => cases hr; cases htable
      | dataset d => cases (congrArg Known.dataset his).symm.trans hd
      | _ => rfl
  | item hfile hd =>
      cases hhead
      cases sense with
      | frontEnd => cases hr; cases htable
      | opener => cases hr; cases htable
      | method m y => cases hr; cases htable
      | dataset d => cases hr; cases htable
      | _ => rfl

include hf hnames hplace h in
theorem Turn.visible_refs {v : Var} (hv : v ∈ s.uses) {sense : Sense}
    (hground : Grounded f st v.name sense) :
    (∀ y, sense.file? = some y → (facts.about y.name).isHidden = false) ∧
      ∀ z, sense.key? = some z → (facts.about z.name).isHidden = false :=
  h.before.visible_refs h.begins.left hnames hplace (hf.given_of_uses h.begins hv) hground

include hf hnames hplace h in
theorem Turn.visible_dataset {v : Var} (hv : v ∈ s.uses) {d : DatasetRef}
    (hd : (st.facts.about v.name).dataset = some d) :
    (facts.about d.file.name).isHidden = false ∧ (facts.about d.name.name).isHidden = false := by
  obtain ⟨sense, -, his, hground⟩ := h.sense_of_uses hf hv
  obtain ⟨hfile, hkey⟩ := h.visible_refs hf hnames hplace hv hground
  rcases his.dataset_eq hd with rfl | ⟨dims, rfl⟩
  · exact ⟨hfile _ rfl, hkey _ rfl⟩
  · exact ⟨hfile _ rfl, hkey _ rfl⟩

include hf hnames hplace h in
theorem Turn.visible_method {v file : Var} (hv : v ∈ s.uses) {m : Method}
    (hm : m.of (st.facts.about v.name) = some file) : (facts.about file.name).isHidden = false := by
  obtain ⟨sense, -, his, hground⟩ := h.sense_of_uses hf hv
  cases his.method_eq hm
  exact (h.visible_refs hf hnames hplace hv hground).1 file rfl

include hnames h in
theorem Turn.visible_of_generated {v : Var} {vars : List Var}
    (hv : GeneratedFrom st.nextTemp v.name ∨ v ∈ vars)
    (hvars : ∀ w ∈ vars, (facts.about w.name).isHidden = false) :
    (facts.about v.name).isHidden = false :=
  hv.elim (fun hgen => h.before.visible_temp hnames (hgen.mono h.before.le)) (hvars v)

include hf hplace in
/-- A copy that stays is no copy of a dataset. -/
theorem Turn.visible_copy {t source v : Var}
    (h : Turn f catalog facts l front (.assign t (.copy source)) st out
      { st with facts := st.facts.noteCopy t source })
    (hstay : !(facts.about t.name).isHidden) (hv : v ∈ (Stmt.assign t (.copy source)).uses) :
    (facts.about v.name).isHidden = false := by
  refine h.visible_of_head hf hplace (fun v hhead => ?_) hv
  refine h.visible_head hf hplace hhead fun sense r his hr htable => ?_
  cases hhead
  have hcopied := h.target_visible rfl ((congrArg Known.role (about_learn_self ..)).trans
    (role_inherit (h.blank_target rfl) his)) hstay
  cases sense with
  | frontEnd => cases hr; cases htable
  | opener => cases hr; cases htable
  | method m y => cases hr; cases htable
  | dataset d => cases hcopied
  | _ => rfl

include hf hplace in
/-- What is called as it is was not taken from the front end or a handle. -/
theorem Turn.visible_call {t callee v : Var} {args : List Var} {kws : List (String × Var)}
    (h : Turn f catalog facts l front (.call t callee args kws) st out st')
    (hc : NotRecognised (st.about callee)) (hv : v ∈ (Stmt.call t callee args kws).uses) :
    (facts.about v.name).isHidden = false := by
  refine h.visible_of_head hf hplace (fun v hhead => ?_) hv
  refine h.visible_head hf hplace hhead fun sense r his hr htable => ?_
  cases hhead
  cases sense with
  | frontEnd => cases hr; cases htable
  | opener => exact absurd ((congrArg Known.opensFiles his).symm.trans hc.opens) (by decide)
  | method m y =>
      cases m with
      | close => cases (congrArg Known.closes his).symm.trans hc.closes
      | createDataset => cases (congrArg Known.makesDataset his).symm.trans hc.makesDataset
      | createGroup => cases (congrArg Known.makesGroup his).symm.trans hc.makesGroup
  | dataset d => cases hr; cases htable
  | _ => rfl

include hf hplace in
theorem Turn.visible_store {t value v : Var} {index : Literal}
    (h : Turn f catalog facts l front (.store t index value) st out st')
    (hd : (st.about t).dataset = none) (hv : v ∈ (Stmt.store t index value).uses) :
    (facts.about v.name).isHidden = false := by
  refine h.visible_of_head hf hplace (fun v hhead => ?_) hv
  refine h.visible_head hf hplace hhead fun sense r his hr htable => ?_
  cases hhead
  cases sense with
  | frontEnd => cases hr; cases htable
  | opener => cases hr; cases htable
  | method m y => cases hr; cases htable
  | dataset d => cases (congrArg Known.dataset his).symm.trans hd
  | _ => rfl

include hf hnames hplace in
theorem Turn.visible_createDataset {c : FileScope} {t callee file name shape elem v : Var}
    {args : List Var} {kws : List (String × Var)} {rank : Nat}
    (h : Turn f catalog facts l front (.call t callee args kws) st out st')
    (hc : (st.about callee).makesDataset = some file)
    (hn : (args[0]? <|> kws.lookup "name") = some name)
    (hs : (args[1]? <|> kws.lookup "shape") = some shape)
    (he : (kws.lookup "dtype" <|> args[2]?) = some elem) {u : Stmt}
    (hu : u ∈ createDatasetCode c t file name shape elem rank st.nextTemp) (hv : v ∈ u.uses) :
    (facts.about v.name).isHidden = false := by
  refine h.visible_of_generated hnames (uses_createDatasetCode hu hv) fun w hw => ?_
  simp only [List.mem_cons, List.not_mem_nil, or_false] at hw
  rcases hw with rfl | rfl | rfl | rfl
  · exact h.visible_method hf hnames hplace (List.mem_cons_self ..) (m := .createDataset) hc
  · exact h.visible_operand hf hplace (mem_of_argument hn)
  · exact h.visible_operand hf hplace (mem_of_argument hs)
  · exact h.visible_operand hf hplace (mem_of_keyword he)

include hf hnames hplace in
theorem Turn.visible_read {c : FileScope} {t base v : Var} {index : Literal}
    {indexVar : Option Var} {d : DatasetRef} {type : ArrayType}
    (h : Turn f catalog facts l front (.assign t (.constItem base index indexVar)) st out st')
    (hd : (st.about base).dataset = some d) (htarget : (facts.about t.name).isHidden = false)
    {u : Stmt} (hu : u ∈ readCode c t d type st.nextTemp) (hv : v ∈ u.uses) :
    (facts.about v.name).isHidden = false := by
  obtain ⟨hfile, hname⟩ := h.visible_dataset hf hnames hplace (v := base) (List.mem_cons_self ..) hd
  refine h.visible_of_generated hnames (uses_readCode hu hv) fun w hw => ?_
  simp only [List.mem_cons, List.not_mem_nil, or_false] at hw
  rcases hw with rfl | rfl | rfl
  · exact hfile
  · exact hname
  · exact htarget

include hf hnames hplace in
theorem Turn.visible_write {c : FileScope} {t value v : Var} {index : Literal} {d : DatasetRef}
    {rank : Nat} (h : Turn f catalog facts l front (.store t index value) st out st')
    (hd : (st.about t).dataset = some d) {u : Stmt}
    (hu : u ∈ transferCode c .write d rank (.attr value "shape") value t.loc st.nextTemp)
    (hv : v ∈ u.uses) : (facts.about v.name).isHidden = false := by
  obtain ⟨hfile, hname⟩ := h.visible_dataset hf hnames hplace (v := t) (List.mem_cons_self ..) hd
  have hvalue := h.visible_operand hf hplace (v := value) (List.mem_singleton_self _)
  rcases uses_transferCode hu hv with hgen | hv | hv
  · exact h.visible_of_generated hnames (Or.inl hgen) (List.forall_mem_nil _)
  · simp only [List.mem_cons, List.not_mem_nil, or_false] at hv
    rcases hv with rfl | rfl | rfl
    · exact hfile
    · exact hname
    · exact hvalue
  · cases List.mem_singleton.mp hv
    exact hvalue

include hf hnames hplace h in
/-- What stands for a statement looks at nothing hidden, unless it assigns a hidden
name itself. -/
theorem Turn.visible_uses {u : Stmt} (hu : u ∈ out) (hstay : staysVisible facts u = true) {v : Var}
    (hv : v ∈ u.uses) : (facts.about v.name).isHidden = false := by
  have hexp := h.expands
  cases hexp with
  | frontEnd | const =>
      cases List.mem_singleton.mp hu
      cases hv
  | opener t base hb =>
      cases List.mem_singleton.mp hu
      cases h.target_visible rfl (is_learn (s := .opener) (h.blank_target rfl) fun _ _ => rfl) hstay
  | method t base m hb hfile =>
      cases List.mem_singleton.mp hu
      cases h.target_visible rfl (is_learn (s := .method m base) (h.blank_target rfl) fun _ _ => by
        cases m <;> rfl) hstay
  | datasetVar t base w index hfile =>
      cases List.mem_singleton.mp hu
      cases h.target_visible rfl (is_learn (s := .dataset _)
        ((role_noteConst st.facts w index _).trans (h.blank_target rfl)) fun _ _ => rfl) hstay
  | datasetKey t base key hfile =>
      rcases List.mem_cons.mp hu with rfl | hu
      · cases hv
      · cases List.mem_singleton.mp hu
        have hblank (name : Var) := (role_noteConst st.facts name (.str key) t.name).trans
          (h.blank_target rfl)
        cases h.target_visible rfl (is_learn (s := .dataset _) (hblank _) fun _ _ => rfl) hstay
  | datasetItem t base index hfile =>
      cases List.mem_singleton.mp hu
      cases h.target_visible rfl (is_learn (s := .dataset _) (h.blank_target rfl) fun _ _ => rfl)
        hstay
  | tuple t items =>
      cases List.mem_singleton.mp hu
      exact h.visible_operand hf hplace hv
  | copy t source =>
      cases List.mem_singleton.mp hu
      exact h.visible_copy hf hplace hstay hv
  | plain t value hplain =>
      cases List.mem_singleton.mp hu
      exact h.visible_plain hf hplace rfl hplain hv
  | call t callee args kws hc =>
      cases List.mem_singleton.mp hu
      exact h.visible_call hf hplace hc hv
  | store t index value hfile hd =>
      cases List.mem_singleton.mp hu
      exact h.visible_store hf hplace hd hv
  | openFile t callee args kws name hc hn =>
      rcases uses_openCode hu hv with hgen | rfl | hmode
      · exact h.visible_of_generated hnames (Or.inl hgen) (List.forall_mem_nil _)
      · exact h.visible_operand hf hplace (mem_of_argument hn)
      · exact h.visible_operand hf hplace (mem_of_argument hmode)
  | closeFile t callee args kws file ho hc =>
      refine h.visible_of_generated hnames (uses_callCode hu hv) fun w hw => ?_
      cases List.mem_singleton.mp hw
      exact h.visible_method hf hnames hplace (List.mem_cons_self ..) (m := .close) hc
  | createDataset t callee args kws file name shape elem dims ho hx hc hn hs he hd =>
      exact h.visible_createDataset hf hnames hplace hc hn hs he hu hv
  | createGroup t callee args kws file name ho hx hy hc hn =>
      refine h.visible_of_generated hnames (uses_callCode hu hv) fun w hw => ?_
      rcases List.mem_cons.mp hw with rfl | hw
      · exact h.visible_method hf hnames hplace (List.mem_cons_self ..) (m := .createGroup) hc
      · cases List.mem_singleton.mp hw
        exact h.visible_operand hf hplace (mem_of_argument hn)
  | read t base index indexVar d type hfile hd hi htype =>
      have htarget := (is_ordinary ((h.final_target rfl).trans (h.blank_target rfl))).isHidden_eq
      exact h.visible_read hf hnames hplace hd htarget hu hv
  | write t index value d rank hfile hd hi hrank =>
      exact h.visible_write hf hnames hplace hd hu hv

end

theorem Sited.visible_uses {f : Function} {catalog : Option Inspector} {facts : Facts} {l : Label}
    {front rest out : List Stmt} {st : Expansion} {b : Block} (hf : f.Ssa) (hnames : f.NamesApart)
    (hplace : f.FrontEndInPlace) (h : Sited f catalog facts l front st rest out)
    (hb : f.block? l = some b) (hbody : b.body = front ++ rest) {u : Stmt} (hu : u ∈ out)
    (hstay : staysVisible facts u = true) {v : Var} (hv : v ∈ u.uses) :
    (facts.about v.name).isHidden = false := by
  induction rest generalizing front st out with
  | nil =>
      cases h
      cases hu
  | cons s rest ih =>
      obtain ⟨out₁, st', out₂, rfl, hturn, hrest⟩ := h.turn hb hbody
      rcases List.mem_append.mp hu with hu | hu
      · exact hturn.visible_uses hf hnames hplace hu hstay hv
      · exact ih hrest (hbody.trans (List.append_cons ..)) hu

theorem Sited.site_end {f : Function} {catalog : Option Inspector} {facts : Facts} {l : Label}
    {front rest out : List Stmt} {st : Expansion}
    (h : Sited f catalog facts l front st rest out) :
    ∃ st', Site f facts l (front ++ rest) st' := by
  induction h with
  | nil h => exact ⟨_, by rwa [List.append_nil]⟩
  | cons _ _ _ _ _ ih => rwa [List.append_cons]

end Expand

namespace Function

open Expand

variable {f : Function} {catalog : Option Inspector} {bs : Array Block} {final : Expansion}
  (hf : f.Ssa) (hnames : f.NamesApart) (hplace : f.FrontEndInPlace)
  (h : Expand.blocks (f.fileScope catalog) f.blocks f.order { nextTemp := f.nextTemp } =
    .ok (bs, final))

include hf hnames hplace h

theorem needsClosed_visible :
    Function.NeedsClosed { f with blocks := bs, nextTemp := final.nextTemp }
      fun x => (final.facts.about x).isHidden = false := by
  -- each block of the result comes from a block that was looked at place by place
  have hblock : ∀ b' ∈ bs.toList, ∃ l b st, f.block? l = some b ∧
      Sited f catalog final.facts l [] st b.body b'.body ∧ b'.term = b.term := by
    intro b' hb'
    obtain ⟨l, hl⟩ := List.mem_iff_getElem?.mp hb'
    have hl' : bs[l]? = some b' := by simpa using hl
    have hlt : l < f.blocks.size := blocks_size h ▸ (Array.getElem?_eq_some_iff.mp hl').1
    have hb : f.block? l = some f.blocks[l] := Array.getElem?_eq_getElem hlt
    obtain ⟨st, out, hsited, hout⟩ := exists_sited hf hnames h hb
    rw [hl'] at hout
    cases hout
    exact ⟨l, _, st, hb, hsited, rfl⟩
  refine ⟨?_, ?_, ?_⟩
  · intro b' hb' u hu heffect v hv
    obtain ⟨l, b, st, hb, hsited, -⟩ := hblock b' hb'
    refine hsited.visible_uses hf hnames hplace hb rfl hu ?_ hv
    cases u with
    | assign t value => cases heffect
    | call t callee args kws => rfl
    | store t index value => rfl
  · intro b' hb' v hv
    obtain ⟨l, b, st, hb, hsited, hterm⟩ := hblock b' hb'
    rw [hterm] at hv
    obtain ⟨st', hsite⟩ := hsited.site_end
    exact hsite.visible_term hf hplace hb rfl hv
  · intro b' hb' u hu t ht hvisible v hv
    obtain ⟨l, b, st, hb, hsited, -⟩ := hblock b' hb'
    refine hsited.visible_uses hf hnames hplace hb rfl hu ?_ hv
    cases u with
    | assign t' value =>
        cases ht
        simpa [staysVisible] using hvisible
    | call t callee args kws => rfl
    | store t index value => rfl

/-- Assignments to hidden names may go before the dead statements do. -/
theorem withoutDead_visible :
    (Function.keeping { f with blocks := bs, nextTemp := final.nextTemp }
        (staysVisible final.facts)).withoutDead =
      Function.withoutDead { f with blocks := bs, nextTemp := final.nextTemp } := by
  refine withoutDead_keeping fun b hb s hs hkept => ?_
  cases s with
  | assign t value =>
      rcases isKept_iff.mp hkept with heffect | ⟨t', ht', hneeded⟩
      · cases heffect
      · cases ht'
        have hvisible := neededNames_least (needsClosed_visible hf hnames hplace h) hneeded
        simpa [staysVisible] using hvisible
  | call t callee args kws => rfl
  | store t index value => rfl

end Function

end SpmdArrays
