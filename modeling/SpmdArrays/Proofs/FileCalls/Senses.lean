import SpmdArrays.Proofs.FileCalls.AsWritten
import SpmdArrays.Proofs.FileCalls.SingleAssignment

/-!
The sense in which a name is taken while a function is looked at. Where every name has
one assignment, all that is known about a name comes from this assignment, so a name has
one sense: it is ordinary, or the front end, or an opening function and so on. The sense
is there from the assignment on and never changes, and the variables that it speaks of,
such as the handle that a method was taken from, are given wherever the name is.
-/

namespace SpmdArrays

/-- What is known about a name, without the texts and the copies that only help to find
types. -/
def Known.role (k : Known) : Known := { k with str := none, copiedTo := none }

namespace Expand

/-- What a name can be taken for, with the variables that this rests on. -/
inductive Sense where
  /-- A name with a value and nothing else, perhaps a tuple of known length. -/
  | ordinary (dims : Option (List Var))
  | frontEnd
  | opener
  | method (m : Method) (file : Var)
  | file (origin : FileOrigin)
  /-- A dataset named through a handle. -/
  | dataset (d : DatasetRef)
  /-- The handle of a dataset that was created. -/
  | created (d : DatasetRef) (dims : List Var)

namespace Sense

def known : Sense → Known
  | .ordinary dims => { tuple := dims }
  | .frontEnd => { isFrontEnd := true }
  | .opener => { opensFiles := true }
  | .method m handle => m.note handle {}
  | .file origin => { file := some origin }
  | .dataset d => { dataset := some d }
  | .created d dims => { dataset := some d, shape := some dims }

def role? : Sense → Option Role
  | .frontEnd => some .frontEnd
  | .opener => some .opener
  | .method m _ => some (.method m)
  | .file _ => some .handle
  | .dataset _ => some .dataset
  | .ordinary _ | .created .. => none

def file? : Sense → Option Var
  | .method _ handle => some handle
  | .dataset d | .created d _ => some d.file
  | _ => none

def key? : Sense → Option Var
  | .dataset d | .created d _ => some d.name
  | _ => none

def copied : Sense → Sense
  | .frontEnd | .opener | .method .. => .ordinary none
  | s => s

end Sense

/-- The name is taken in this sense. -/
def Is (k : Known) (s : Sense) : Prop := k.role = s.known

section

variable {k : Known} {s : Sense}

theorem Is.frontEnd_eq (h : Is k s) (hk : k.isFrontEnd = true) : s = .frontEnd := by
  have hs : s.known.isFrontEnd = true := (congrArg Known.isFrontEnd h).symm.trans hk
  cases s with
  | frontEnd => rfl
  | method m file => cases m <;> cases hs
  | _ => cases hs

theorem Is.opener_eq (h : Is k s) (hk : k.opensFiles = true) : s = .opener := by
  have hs : s.known.opensFiles = true := (congrArg Known.opensFiles h).symm.trans hk
  cases s with
  | opener => rfl
  | method m file => cases m <;> cases hs
  | _ => cases hs

theorem Is.file_eq (h : Is k s) {origin : FileOrigin} (hk : k.file = some origin) :
    s = .file origin := by
  have hs : s.known.file = some origin := (congrArg Known.file h).symm.trans hk
  cases s with
  | file origin => cases hs; rfl
  | method m file => cases m <;> cases hs
  | _ => cases hs

theorem Is.exists_file_eq (h : Is k s) (hk : k.file.isSome) : ∃ origin, s = .file origin := by
  obtain ⟨origin, horigin⟩ := Option.isSome_iff_exists.mp hk
  exact ⟨origin, h.file_eq horigin⟩

theorem Is.dataset_eq (h : Is k s) {d : DatasetRef} (hk : k.dataset = some d) :
    s = .dataset d ∨ ∃ dims, s = .created d dims := by
  have hs : s.known.dataset = some d := (congrArg Known.dataset h).symm.trans hk
  cases s with
  | dataset d => cases hs; exact Or.inl rfl
  | created d dims => cases hs; exact Or.inr ⟨dims, rfl⟩
  | method m file => cases m <;> cases hs
  | _ => cases hs

theorem Is.tuple_eq (h : Is k s) {dims : List Var} (hk : k.tuple = some dims) :
    s = .ordinary (some dims) := by
  have hs : s.known.tuple = some dims := (congrArg Known.tuple h).symm.trans hk
  cases s with
  | ordinary o => cases hs; rfl
  | method m file => cases m <;> cases hs
  | _ => cases hs

def Method.of (k : Known) : Method → Option Var
  | .close => k.closes
  | .createDataset => k.makesDataset
  | .createGroup => k.makesGroup

theorem Is.method_eq (h : Is k s) {m : Method} {file : Var} (hk : m.of k = some file) :
    s = .method m file := by
  have hs : m.of s.known = some file := by
    rw [← hk, ← h]
    cases m <;> rfl
  cases s with
  | method a y => cases m <;> cases a <;> cases hs <;> rfl
  | _ => cases m <;> cases hs

theorem is_ordinary (h : k.role = {}) : Is k (.ordinary none) := h

theorem Is.eq_ordinary (h : Is k s) (hk : k.role = {}) : s = .ordinary none := by
  have hs : s.known = {} := h.symm.trans hk
  cases s with
  | ordinary dims => cases dims <;> first | rfl | cases hs
  | method m file => cases m <;> cases hs
  | _ => cases hs

theorem Is.unique {s' : Sense} (h : Is k s) (h' : Is k s') : s = s' := by
  cases s' with
  | frontEnd => exact h.frontEnd_eq (congrArg Known.isFrontEnd h')
  | opener => exact h.opener_eq (congrArg Known.opensFiles h')
  | file origin => exact h.file_eq (congrArg Known.file h')
  | method m y =>
      refine h.method_eq (m := m) ?_
      cases m with
      | close => exact congrArg Known.closes h'
      | createDataset => exact congrArg Known.makesDataset h'
      | createGroup => exact congrArg Known.makesGroup h'
  | dataset d =>
      rcases h.dataset_eq (congrArg Known.dataset h') with rfl | ⟨dims, rfl⟩
      · rfl
      · cases (congrArg Known.shape h).symm.trans (congrArg Known.shape h')
  | created d dims =>
      rcases h.dataset_eq (congrArg Known.dataset h') with rfl | ⟨dims', rfl⟩
      · cases (congrArg Known.shape h).symm.trans (congrArg Known.shape h')
      · cases (congrArg Known.shape h).symm.trans (congrArg Known.shape h')
        rfl
  | ordinary dims =>
      cases dims with
      | none => exact h.eq_ordinary h'
      | some dims => exact h.tuple_eq (congrArg Known.tuple h')

theorem role_add (hk : k.role = {}) {add : Known → Known}
    (hadd : ∀ str copiedTo, (add { str := str, copiedTo := copiedTo }).role = s.known) :
    Is (add k) s := by
  have heq : k = { str := k.str, copiedTo := k.copiedTo } := by
    obtain ⟨isFrontEnd, opensFiles, file, dataset, shape, closes, makesDataset, makesGroup, str,
      tuple, copiedTo⟩ := k
    cases hk
    rfl
  rw [heq]
  exact hadd k.str k.copiedTo

theorem is_learn {facts : Facts} {name : String} (h : (facts.about name).role = {})
    {add : Known → Known}
    (hadd : ∀ str copiedTo, (add { str := str, copiedTo := copiedTo }).role = s.known) :
    Is ((facts.learn name add).about name) s := by
  rw [Facts.about_learn, if_pos rfl]
  exact role_add h hadd

theorem role_inherit (hk : k.role = {}) {source : Known} (h : Is source s) :
    Is (k.inherit source) s.copied := by
  have hsource : ∀ k : Known, (k.inherit source).role = (k.inherit source.role).role := by
    intro k
    obtain ⟨isFrontEnd, opensFiles, file, dataset, shape, closes, makesDataset, makesGroup, str,
      tuple, copiedTo⟩ := source
    rfl
  refine @role_add k s.copied hk (fun k => k.inherit source) fun str copiedTo => ?_
  rw [hsource, h]
  cases s with
  | method m file => cases m <;> rfl
  | ordinary dims => cases dims <;> rfl
  | _ => rfl

end

/-! ### Only assignments give a sense -/

section

variable {c : FileScope} {st st' : Expansion} {s : Stmt} {out : List Stmt} {x : String}

theorem about_learn_of_ne (facts : Facts) {name : String} (h : name ≠ x) (add : Known → Known) :
    (facts.learn name add).about x = facts.about x := by
  rw [Facts.about_learn, if_neg h]

theorem about_learn_self (facts : Facts) (name : String) (add : Known → Known) :
    (facts.learn name add).about name = add (facts.about name) := by
  rw [Facts.about_learn, if_pos rfl]

theorem role_noteConst (facts : Facts) (v : Var) (lit : Literal) (x : String) :
    ((facts.noteConst v lit).about x).role = (facts.about x).role := by
  cases lit with
  | str text =>
      rw [Facts.noteConst, Facts.about_learn]
      split <;> rfl
  | _ => rfl

theorem role_noteCopies (facts : Facts) (body : List Stmt) (x : String) :
    ((facts.noteCopies body).about x).role = (facts.about x).role := by
  refine Facts.noteCopies_induct (P := fun g => (g.about x).role = (facts.about x).role) rfl ?_
  intro g target source _ hg
  rw [← hg, Facts.about_learn]
  split <;> rfl

theorem ne_of_not_assigns {t : Var} (hs : s.target? = some t) (h : ¬ s.Assigns x) : t.name ≠ x := by
  intro heq
  apply h
  rw [Stmt.Assigns, hs]
  exact congrArg some heq

theorem Expands.role_eq (h : Expands c st s out st') (hx : ¬ s.Assigns x) :
    (st'.facts.about x).role = (st.facts.about x).role := by
  cases h with
  | frontEnd t => exact congrArg _ (about_learn_of_ne _ (ne_of_not_assigns rfl hx) _)
  | opener t base hb => exact congrArg _ (about_learn_of_ne _ (ne_of_not_assigns rfl hx) _)
  | method t base m hb hf => exact congrArg _ (about_learn_of_ne _ (ne_of_not_assigns rfl hx) _)
  | datasetVar t base v index hf =>
      rw [← role_noteConst st.facts v index x]
      exact congrArg _ (about_learn_of_ne _ (ne_of_not_assigns rfl hx) _)
  | datasetKey t base key hf =>
      rw [← role_noteConst st.facts (temp c "dset_name" t.loc st.nextTemp) (.str key) x]
      exact congrArg _ (about_learn_of_ne _ (ne_of_not_assigns rfl hx) _)
  | datasetItem t base index hf =>
      exact congrArg _ (about_learn_of_ne _ (ne_of_not_assigns rfl hx) _)
  | tuple t items => exact congrArg _ (about_learn_of_ne _ (ne_of_not_assigns rfl hx) _)
  | copy t source => exact congrArg _ (about_learn_of_ne _ (ne_of_not_assigns rfl hx) _)
  | const t lit => exact role_noteConst st.facts t lit x
  | openFile t callee args kws name hc hn =>
      exact congrArg _ (about_learn_of_ne _ (ne_of_not_assigns rfl hx) _)
  | createDataset t callee args kws file name shape elem dims ho hx' hc hn hs he hd =>
      exact congrArg _ (about_learn_of_ne _ (ne_of_not_assigns rfl hx) _)
  | createGroup t callee args kws file name ho hx' hy hc hn =>
      exact congrArg _ (about_learn_of_ne _ (ne_of_not_assigns rfl hx) _)
  | _ => rfl

theorem ExpandsRow.role_eq {ss : List Stmt} {outs : List (List Stmt)}
    (h : ExpandsRow c st ss outs st') (hx : x ∉ definedNames ss) :
    (st'.facts.about x).role = (st.facts.about x).role := by
  induction h with
  | nil st => rfl
  | cons hs hss ih =>
      rw [definedNames_cons, List.mem_append, not_or] at hx
      rw [ih hx.2]
      exact hs.role_eq fun hsx => hx.1 (Option.mem_toList.mpr hsx)

def visitedNames (vs : List Visit) : List String := vs.flatMap fun v => definedNames v.block.body

theorem Visits.role_eq {vs : List Visit} (h : Visits c st vs st') (hx : x ∉ visitedNames vs) :
    (st'.facts.about x).role = (st.facts.about x).role := by
  induction h with
  | nil st => rfl
  | cons hv hvs ih =>
      rw [visitedNames, List.flatMap_cons, List.mem_append, not_or] at hx
      rw [ih hx.2, hv.role_eq hx.1]
      exact role_noteCopies _ _ x

end

/-! ### What a sense rests on -/

/-- The variable of a key is given wherever the name is, or it is a temporary that is
taken already. -/
def KeyKept (f : Function) (st : Expansion) (x : String) (z : Var) : Prop :=
  (f.Follows x z.name ∧ ∃ u ∈ f.stmts, z ∈ u.operands) ∨
    (GeneratedFrom f.nextTemp z.name ∧ ¬ GeneratedFrom st.nextTemp z.name)

/-- The variable of a handle is one of the function, it is given wherever the name is, and
it is known to be a handle. -/
def HandleKept (f : Function) (st : Expansion) (x : String) (y : Var) : Prop :=
  f.Follows x y.name ∧ ¬ GeneratedFrom f.nextTemp y.name ∧
    ∃ origin, Is (st.facts.about y.name) (.file origin)

structure Grounded (f : Function) (st : Expansion) (x : String) (s : Sense) : Prop where
  role : ∀ r, s.role? = some r → f.Plays r x
  file : ∀ y, s.file? = some y → HandleKept f st x y
  key : ∀ z, s.key? = some z → KeyKept f st x z

/-- What is known after the assignments to the names of the past. -/
structure Informed (f : Function) (past : List String) (st : Expansion) : Prop where
  le : f.nextTemp ≤ st.nextTemp
  blank : ∀ x, x ∉ past → (st.facts.about x).role = {}
  sense : ∀ x, ∃ s, Is (st.facts.about x) s ∧ Grounded f st x s

section

variable {f : Function} {c : FileScope} {st st' : Expansion} {x : String}

theorem grounded_ordinary (f : Function) (st : Expansion) (x : String) (dims : Option (List Var)) :
    Grounded f st x (.ordinary dims) :=
  ⟨nofun, nofun, nofun⟩

theorem grounded_of_plays {s : Sense} {role : Role} (hrole : s.role? = some role)
    (hplays : f.Plays role x) (hfile : s.file? = none) (hkey : s.key? = none) :
    Grounded f st x s where
  role r hr := by
    cases hrole.symm.trans hr
    exact hplays
  file y hy := by
    rw [hfile] at hy
    cases hy
  key z hz := by
    rw [hkey] at hz
    cases hz

theorem grounded_method {m : Method} {y : Var} (hplays : f.Plays (.method m) x)
    (hfile : HandleKept f st x y) : Grounded f st x (.method m y) where
  role _ hr := by
    cases hr
    exact hplays
  file _ hy := by
    cases hy
    exact hfile
  key _ hz := by cases hz

theorem grounded_dataset {d : DatasetRef} (hplays : f.Plays .dataset x)
    (hfile : HandleKept f st x d.file) (hkey : KeyKept f st x d.name) :
    Grounded f st x (.dataset d) where
  role _ hr := by
    cases hr
    exact hplays
  file _ hy := by
    cases hy
    exact hfile
  key _ hz := by
    cases hz
    exact hkey

theorem grounded_created {d : DatasetRef} (dims : List Var) (hfile : HandleKept f st x d.file)
    (hkey : KeyKept f st x d.name) : Grounded f st x (.created d dims) where
  role _ hr := by cases hr
  file _ hy := by
    cases hy
    exact hfile
  key _ hz := by
    cases hz
    exact hkey

theorem Grounded.copied {s : Sense} {t source : Var} (h : Grounded f st source.name s)
    (hmem : .assign t (.copy source) ∈ f.stmts) (hfollows : f.Follows t.name source.name) :
    Grounded f st t.name s.copied where
  role r hr := by
    cases s with
    | file origin =>
        cases hr
        exact .copy hmem rfl (h.role _ rfl)
    | dataset d =>
        cases hr
        exact .copy hmem rfl (h.role _ rfl)
    | _ => cases hr
  file y hy := by
    have hy' : s.file? = some y := by cases s <;> first | exact hy | cases hy
    obtain ⟨hfile, hrest⟩ := h.file y hy'
    exact ⟨hfollows.trans hfile, hrest⟩
  key z hz := by
    have hz' : s.key? = some z := by cases s <;> exact hz
    exact (h.key z hz').imp_left fun hz => ⟨hfollows.trans hz.1, hz.2⟩

theorem Grounded.mono {s : Sense} (h : Grounded f st x s) (hle : st.nextTemp ≤ st'.nextTemp)
    (hfiles : ∀ y origin, Is (st.facts.about y) (.file origin) →
      Is (st'.facts.about y) (.file origin)) : Grounded f st' x s where
  role := h.role
  file y hy := by
    obtain ⟨hfollows, hgen, origin, ho⟩ := h.file y hy
    exact ⟨hfollows, hgen, origin, hfiles _ _ ho⟩
  key z hz := (h.key z hz).imp_right fun hz => ⟨hz.1, fun hgen => hz.2 (hgen.mono hle)⟩

theorem informed_start (f : Function) : Informed f [] { nextTemp := f.nextTemp } where
  le := Nat.le_refl _
  blank x _ := congrArg _ (Facts.about_empty x)
  sense x := ⟨.ordinary none, congrArg _ (Facts.about_empty x), grounded_ordinary ..⟩

theorem Informed.noteCopies {past : List String} (h : Informed f past st) (body : List Stmt) :
    Informed f past { st with facts := st.facts.noteCopies body } where
  le := h.le
  blank x hx := (role_noteCopies _ _ x).trans (h.blank x hx)
  sense x := by
    obtain ⟨s, hs, hground⟩ := h.sense x
    refine ⟨s, (role_noteCopies _ _ x).trans hs, hground.mono (Nat.le_refl _) ?_⟩
    exact fun y origin hy => (role_noteCopies _ _ y).trans hy

theorem Informed.mem_past {past : List String} (h : Informed f past st) {y : String}
    {origin : FileOrigin} (hy : Is (st.facts.about y) (.file origin)) : y ∈ past := by
  refine Decidable.of_not_not fun hmem => ?_
  cases hy.eq_ordinary (h.blank y hmem)

variable (hf : f.Ssa) (hnames : f.NamesApart) {past : List String} (h : Informed f past st)
  {l : Label} {front : List Stmt} {s : Stmt} {out : List Stmt}
  (hs : f.Begins l (front ++ [s])) (hexp : Expands c st s out st')
  (hfresh : ∀ x, s.Assigns x → x ∉ past)

include hexp h hfresh in
theorem Informed.file_kept (y : String) (origin : FileOrigin)
    (hy : Is (st.facts.about y) (.file origin)) : Is (st'.facts.about y) (.file origin) :=
  (hexp.role_eq fun hsy => hfresh y hsy (h.mem_past hy)).trans hy

include hf hnames hs in
theorem follows_of_uses {t v : Var} (ht : s.target? = some t) (hv : v ∈ s.uses) :
    f.Follows t.name v.name ∧ ¬ GeneratedFrom f.nextTemp v.name := by
  have hassigns : s.Assigns t.name := congrArg (Option.map Var.name) ht
  exact ⟨hf.follows_of_assigns hs hassigns (hf.given_of_uses hs hv), hnames.used hs.mem_stmts hv⟩

include hf hnames h hs hexp hfresh in
theorem Informed.base_kept {t : Var} (ht : s.target? = some t) (base : Var)
    (hbase : base ∈ s.uses) (hfile : (st.facts.about base.name).file.isSome) :
    f.Plays .handle base.name ∧ HandleKept f st' t.name base := by
  obtain ⟨sense, hsense, hground⟩ := h.sense base.name
  obtain ⟨origin, rfl⟩ := hsense.exists_file_eq hfile
  obtain ⟨hfollows, hgen⟩ := follows_of_uses hf hnames hs ht hbase
  exact ⟨hground.role _ rfl, hfollows, hgen, origin, h.file_kept hexp hfresh _ _ hsense⟩

include hf hnames h hs hexp hfresh in
theorem Informed.callee_kept {t : Var} (ht : s.target? = some t) (m : Method) (callee file : Var)
    (hcallee : callee ∈ s.uses) (hfile : m.of (st.facts.about callee.name) = some file) :
    f.Plays (.method m) callee.name ∧ HandleKept f st' t.name file := by
  obtain ⟨sense, hsense, hground⟩ := h.sense callee.name
  cases hsense.method_eq hfile
  obtain ⟨hfollows, hgen, origin, horigin⟩ := hground.file file rfl
  have hcall := (follows_of_uses hf hnames hs ht hcallee).1
  exact ⟨hground.role _ rfl, hcall.trans hfollows, hgen, origin,
    h.file_kept hexp hfresh _ _ horigin⟩

include hf hnames hs in
theorem keyKept_of_uses {t : Var} (ht : s.target? = some t) (key : Var) (hkey : key ∈ s.uses)
    (hoperand : key ∈ s.operands) : KeyKept f st' t.name key :=
  Or.inl ⟨(follows_of_uses hf hnames hs ht hkey).1, s, hs.mem_stmts, hoperand⟩

include hf hnames h hs hexp hfresh in
/-- An assignment gives its name a sense. -/
theorem Informed.target {t : Var} (ht : s.target? = some t) :
    ∃ sense, Is (st'.facts.about t.name) sense ∧ Grounded f st' t.name sense := by
  have hmem := hs.mem_stmts
  have hblank : (st.facts.about t.name).role = {} :=
    h.blank _ (hfresh _ (congrArg (Option.map Var.name) ht))
  have hbase := h.base_kept hf hnames hs hexp hfresh ht
  have hcallee := h.callee_kept hf hnames hs hexp hfresh ht
  have hkey := @keyKept_of_uses f st' hf hnames l front s hs t ht
  have hfiles := h.file_kept hexp hfresh
  have hle := hexp.nextTemp_le
  cases hexp with
  | frontEnd t =>
      cases ht
      exact ⟨.frontEnd, is_learn hblank fun _ _ => rfl,
        grounded_of_plays rfl (.frontEnd hmem) rfl rfl⟩
  | opener t base hb =>
      cases ht
      obtain ⟨sense, hsense, hground⟩ := h.sense base.name
      cases hsense.frontEnd_eq hb
      exact ⟨.opener, is_learn hblank fun _ _ => rfl,
        grounded_of_plays rfl (.opener hmem (hground.role _ rfl)) rfl rfl⟩
  | method t base m hb hfile =>
      cases ht
      obtain ⟨hplays, hkept⟩ := hbase base (List.mem_singleton_self _) hfile
      exact ⟨.method m base, is_learn hblank fun _ _ => by cases m <;> rfl,
        grounded_method (.method hmem hplays) hkept⟩
  | datasetVar t base v index hfile =>
      cases ht
      obtain ⟨hplays, hkept⟩ := hbase base (List.mem_cons_self ..) hfile
      exact ⟨.dataset ⟨base, v⟩,
        is_learn ((role_noteConst st.facts v index _).trans hblank) fun _ _ => rfl,
        grounded_dataset (.constItem hmem hplays) hkept
          (hkey v (by simp [Stmt.uses, Expr.uses]) (by simp [Stmt.operands]))⟩
  | datasetKey t base key hfile =>
      cases ht
      obtain ⟨hplays, hkept⟩ := hbase base (List.mem_cons_self ..) hfile
      exact ⟨.dataset ⟨base, temp c "dset_name" t.loc st.nextTemp⟩,
        is_learn ((role_noteConst st.facts _ (.str key) _).trans hblank) fun _ _ => rfl,
        grounded_dataset (.constItem hmem hplays) hkept
          (Or.inr ⟨generatedFrom_temp _ _ _ h.le,
            not_generatedFrom_tempName (Nat.lt_succ_self st.nextTemp)⟩)⟩
  | datasetItem t base index hfile =>
      cases ht
      obtain ⟨hplays, hkept⟩ := hbase base (List.mem_cons_self ..) hfile
      exact ⟨.dataset ⟨base, index⟩, is_learn hblank fun _ _ => rfl,
        grounded_dataset (.item hmem hplays) hkept
          (hkey index (by simp [Stmt.uses, Expr.uses]) (by simp [Stmt.operands]))⟩
  | tuple t items =>
      cases ht
      exact ⟨.ordinary (some items), is_learn hblank fun _ _ => rfl, grounded_ordinary ..⟩
  | copy t source =>
      cases ht
      obtain ⟨sense, hsense, hground⟩ := h.sense source.name
      obtain ⟨hfollows, -⟩ := follows_of_uses hf hnames hs rfl (List.mem_singleton_self source)
      refine ⟨sense.copied, ?_, (hground.mono hle hfiles).copied hmem hfollows⟩
      rw [show (st.facts.noteCopy t source).about t.name = _ from about_learn_self ..]
      exact role_inherit hblank hsense
  | const t lit =>
      cases ht
      exact ⟨.ordinary none, (role_noteConst st.facts t lit _).trans hblank, grounded_ordinary ..⟩
  | openFile t callee args kws name hc hn =>
      cases ht
      obtain ⟨sense, hsense, hground⟩ := h.sense callee.name
      cases hsense.opener_eq hc
      exact ⟨.file (.named name), is_learn hblank fun _ _ => rfl,
        grounded_of_plays rfl (.openFile hmem (hground.role _ rfl)) rfl rfl⟩
  | createDataset t callee args kws file name shape elem dims ho hx hc hn hshape he hd =>
      cases ht
      obtain ⟨-, hkept⟩ := hcallee .createDataset callee file (List.mem_cons_self ..) hc
      have hname : name ∈ args ++ kws.map Prod.snd := mem_of_argument hn
      exact ⟨.created ⟨file, name⟩ dims, is_learn hblank fun _ _ => rfl,
        grounded_created dims hkept (hkey name (List.mem_cons_of_mem _ hname) hname)⟩
  | createGroup t callee args kws file name ho hx hy hc hn =>
      cases ht
      obtain ⟨hplays, -⟩ := hcallee .createGroup callee file (List.mem_cons_self ..) hc
      exact ⟨.file .group, is_learn hblank fun _ _ => rfl,
        grounded_of_plays rfl (.createGroup hmem hplays) rfl rfl⟩
  | read | plain | closeFile | call =>
      cases ht
      exact ⟨.ordinary none, hblank, grounded_ordinary ..⟩
  | write | store => cases ht

include hf hnames h hs hexp hfresh in
theorem Informed.step : Informed f (past ++ definedNames [s]) st' where
  le := Nat.le_trans h.le hexp.nextTemp_le
  blank x hx := by
    rw [List.mem_append, not_or] at hx
    rw [hexp.role_eq fun hsx => hx.2 (mem_definedNames (List.mem_singleton_self s) hsx)]
    exact h.blank x hx.1
  sense x := by
    by_cases hsx : s.Assigns x
    · obtain ⟨t, ht, rfl⟩ := Option.map_eq_some_iff.mp hsx
      exact h.target hf hnames hs hexp hfresh ht
    · obtain ⟨sense, hsense, hground⟩ := h.sense x
      exact ⟨sense, (hexp.role_eq hsx).trans hsense,
        hground.mono hexp.nextTemp_le (h.file_kept hexp hfresh)⟩

end

/-! ### Rows and visits -/

section

variable {f : Function} {c : FileScope} {st st' : Expansion} {past : List String} (hf : f.Ssa)
  (hnames : f.NamesApart)

include hf hnames

theorem Informed.row {ss : List Stmt} {outs : List (List Stmt)} {l : Label} {front : List Stmt}
    (h : Informed f past st) (hrow : ExpandsRow c st ss outs st')
    (hbegins : f.Begins l (front ++ ss)) (hnodup : (past ++ definedNames ss).Nodup) :
    Informed f (past ++ definedNames ss) st' := by
  induction hrow generalizing past front with
  | nil st =>
      rw [definedNames_nil, List.append_nil]
      exact h
  | @cons st st₁ st₂ s ss out outs hs hss ih =>
      rw [List.append_cons] at hbegins
      rw [← List.singleton_append, definedNames_append, ← List.append_assoc] at hnodup ⊢
      have hfresh : ∀ x, s.Assigns x → x ∉ past := by
        intro x hsx hmem
        refine (List.nodup_append'.mp (List.nodup_append'.mp hnodup).1).2.2 hmem ?_
        exact mem_definedNames (List.mem_singleton_self s) hsx
      exact ih (h.step hf hnames hbegins.left hs hfresh) hbegins hnodup

theorem Informed.visits {vs : List Visit} (h : Informed f past st) (hvs : Visits c st vs st')
    (hblocks : ∀ v ∈ vs, f.block? v.label = some v.block)
    (hnodup : (past ++ visitedNames vs).Nodup) : Informed f (past ++ visitedNames vs) st' := by
  induction hvs generalizing past with
  | nil st =>
      rw [show visitedNames [] = [] from rfl, List.append_nil]
      exact h
  | @cons st st₁ st₂ v vs hv hvs ih =>
      rw [visitedNames, List.flatMap_cons, ← List.append_assoc] at hnodup ⊢
      have hbegins : f.Begins v.label ([] ++ v.block.body) :=
        ⟨v.block, hblocks v (List.mem_cons_self ..), List.prefix_refl _⟩
      have hv' := (h.noteCopies v.block.body).row hf hnames hv hbegins
        (List.nodup_append'.mp hnodup).1
      exact ih hv' (fun w hw => hblocks w (List.mem_cons_of_mem _ hw)) hnodup

end

end Expand

end SpmdArrays
