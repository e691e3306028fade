import SpmdArrays.Proofs.FileCalls.Mirroring
import SpmdArrays.Proofs.FileCalls.WrittenRuns

/-!
One statement as it is written and the statements that stand for it, run side by side.
A statement that gives a hidden name its meaning is answered by nothing, or by the
constant for a key; one that asks the device is answered by the statements of the
request; all others are answered by themselves. Either way the machines go on together,
or the run as written has stopped with no more requests than the other one made.
-/

namespace SpmdArrays

namespace Expand

open Exec (Covers Performs)

section

variable {σ : Type} {d : Device σ} {f : Function} {catalog : Option Inspector} {facts : Facts}
  {l : Label} {front out : List Stmt} {s : Stmt} {st st' : Expansion}
  {m : FrontMachine (σ × List Request)} {n n' : Machine (σ × List Request)} {t : Var}
  {sense : Sense} (hf : f.Ssa) (hnames : f.NamesApart) (hplace : f.FrontEndInPlace)
  (hturn : Turn f catalog facts l front s st out st') (h : Mirrors f facts l front m n)

/-! ### What is known at a statement -/

include hnames hturn in
theorem Turn.target_not_generated (ht : s.target? = some t) :
    ¬ GeneratedFrom f.nextTemp t.name :=
  hnames.defined _ (mem_definedNames hturn.begins.mem_stmts (congrArg (Option.map Var.name) ht))

include hf hnames hturn h in
theorem Turn.mirrored {v : Var} (hv : v ∈ s.uses) :
    ∃ sense, Is (st.facts.about v.name) sense ∧ Grounded f st v.name sense ∧
      Mirrored m n v.name sense := by
  obtain ⟨sense, hfinal, his, hground⟩ := hturn.sense_of_uses hf hv
  refine ⟨sense, his, hground, h.names _ _ (hf.given_of_uses hturn.begins hv) ?_ hfinal⟩
  exact hnames.used hturn.begins.mem_stmts hv

include hf hnames hplace hturn h in
theorem Turn.operand_eq {v : Var} (hv : v ∈ s.operands) : m.env[v.name]? = n.env[v.name]? := by
  have huse := Stmt.uses_of_operand hv
  obtain ⟨sense, hfinal, -, -⟩ := hturn.sense_of_uses hf huse
  refine (h.names _ _ (hf.given_of_uses hturn.begins huse)
    (hnames.used hturn.begins.mem_stmts huse) hfinal).agree ?_
  rw [← hfinal.isHidden_eq]
  exact hturn.visible_operand hf hplace hv

include hnames hturn in
theorem Turn.filter_eq
    (hvisible : ∀ t, s.target? = some t → (facts.about t.name).isHidden = false) :
    out.filter (staysVisible facts) = out := by
  refine List.filter_eq_self.mpr fun u hu => ?_
  cases u with
  | call t callee args kws => rfl
  | store t index value => rfl
  | assign t value =>
      have htemps := hturn.expands.withTemps fun x hx hgen => by
        obtain ⟨t', ht', rfl⟩ := Option.map_eq_some_iff.mp hx
        exact hturn.target_not_generated hnames ht' (hgen.mono hturn.before.le)
      have hvis : (facts.about t.name).isHidden = false := by
        by_cases hgen : GeneratedFrom st.nextTemp t.name
        · exact hturn.before.visible_temp hnames (hgen.mono hturn.before.le)
        · have hmem : t.name ∈ definedNames out := mem_definedNames hu rfl
          rw [← List.count_pos_iff, htemps.kept _ hgen, List.count_pos_iff] at hmem
          obtain ⟨t', ht', hname⟩ := Option.map_eq_some_iff.mp (Option.mem_toList.mp hmem)
          rw [← hname]
          exact hvisible t' ht'
      simp [staysVisible, hvis]

/-! ### Statements that give their target something -/

include hf hnames hturn h in
theorem Mirrors.bind (k : Machine (σ × List Request)) (ht : s.target? = some t)
    (hsense : Is (facts.about t.name) sense)
    {value : Option Value} {meaning : Option Meaning}
    (hkeeps : ∀ x, t.name ≠ x → ¬ GeneratedFrom st.nextTemp x → k.env[x]? = n.env[x]?)
    (hagree : sense.isHidden = false → value = k.env[t.name]?)
    (hmeans : sense.Means k.env meaning) (hholds : sense.Holds k.env[t.name]?) :
    Mirrors f facts l (front ++ [s])
      (FrontMachine.bind { m with device := k.device } t value meaning) k := by
  have hne : ∀ {x}, ¬ s.Assigns x → t.name ≠ x := ne_of_not_assigns ht
  refine h.step hf hnames hturn rfl (fun x hx => FrontMachine.bind_meanings_of_ne _ _ _ (hne hx))
    (fun x hx hgen => Or.inl (hkeeps x (hne hx) hgen)) ?_ ?_
  · intro x hx hgen hvisible hnot
    obtain ⟨sense', hfinal, -⟩ := hturn.before.sense_of_given hx
    rw [FrontMachine.bind_env_of_ne _ _ _ (hne hnot),
      hkeeps x (hne hnot) fun hx => hgen (hx.mono hturn.before.le)]
    exact (h.names x sense' hx hgen hfinal).agree (hfinal.isHidden_eq.symm.trans hvisible)
  · intro t' sense' ht' hsense'
    cases ht.symm.trans ht'
    cases hsense.unique hsense'
    refine ⟨fun hvisible => ?_, ?_, hholds⟩
    · rw [FrontMachine.bind_env_self]
      exact hagree hvisible
    · rw [FrontMachine.bind_meanings_self]
      exact hmeans

include hf hnames hturn h in
theorem Turn.covers_bind (env : Env) (ht : s.target? = some t)
    (hsense : Is (facts.about t.name) sense) {value : Option Value} {meaning : Option Meaning}
    (hbody : Exec.body d.recording (out.filter (staysVisible facts)) n =
      .ok () { n with env := env })
    (hkeeps : ∀ x, t.name ≠ x → ¬ GeneratedFrom st.nextTemp x → env[x]? = n.env[x]?)
    (hagree : sense.isHidden = false → value = env[t.name]?) (hmeans : sense.Means env meaning)
    (hholds : sense.Holds env[t.name]?) :
    Covers FrontMachine.requests Machine.requests (Mirrors f facts l (front ++ [s]))
      (.ok () (m.bind t value meaning))
      (Exec.body d.recording (out.filter (staysVisible facts)) n) := by
  have hbind : Mirrors f facts l (front ++ [s])
      (FrontMachine.bind { m with device := n.device } t value meaning) { n with env := env } :=
    h.bind hf hnames hturn { n with env := env } ht hsense hkeeps hagree hmeans hholds
  have hsame : { m with device := n.device } = m := by rw [← h.device]
  rw [hsame] at hbind
  rw [hbody]
  exact ⟨rfl, hbind⟩

include hf hnames hturn h in
/-- The device is asked, and the target takes what comes of it. -/
theorem Turn.covers_serve (ht : s.target? = some t) (hsense : Is (facts.about t.name) sense)
    (hvisible : sense.isHidden = false) {α : Type} {x : Service (σ × List Request) α}
    {result : α → Value} {meaning : Option Meaning}
    (hx : Performs d.recording out n x fun a env =>
      Env.Keeps st.nextTemp (n.env.insert t.name (result a)) env)
    (hmeans : ∀ a env, Env.Keeps st.nextTemp (n.env.insert t.name (result a)) env →
      sense.Means env meaning ∧ sense.Holds (some (result a))) :
    Covers FrontMachine.requests Machine.requests (Mirrors f facts l (front ++ [s]))
      ((Front.serve x >>= fun a => Front.bind t (some (result a)) meaning) m)
      (Exec.body d.recording (out.filter (staysVisible facts)) n) := by
  have hstays := hturn.filter_eq hnames fun t' ht' => by
    cases ht.symm.trans ht'
    exact hsense.isHidden_eq.trans hvisible
  rw [hstays]
  refine Front.covers_serve h.device hx fun a n' hpost => ⟨_, rfl, ?_⟩
  have hgen : ¬ GeneratedFrom st.nextTemp t.name := fun hgen =>
    hturn.target_not_generated hnames ht (hgen.mono hturn.before.le)
  have htarget : n'.env[t.name]? = some (result a) := by
    rw [← hpost _ hgen, Env.getElem?_insert_self]
  obtain ⟨hmeans, hholds⟩ := hmeans a n'.env hpost
  refine h.bind hf hnames hturn n' ht hsense ?_ (fun _ => htarget.symm) hmeans ?_
  · intro x hx hgen
    rw [← hpost x hgen, Env.getElem?_insert_of_ne _ hx]
  · rw [htarget]
    exact hholds

/-! ### Statements that stand for themselves -/

include hf hnames hplace hturn h in
theorem Turn.covers_plain (hout : out = [s]) {dims : Option (List Var)}
    (hsense : ∀ t, s.target? = some t → Is (facts.about t.name) (.ordinary dims))
    (hholds : ∀ t n', s.target? = some t → Exec.stmt d.recording s n = .ok () n' →
      (Sense.ordinary dims).Holds n'.env[t.name]?) :
    Covers FrontMachine.requests Machine.requests (Mirrors f facts l (front ++ [s]))
      (Front.plain d.recording s m)
      (Exec.body d.recording (out.filter (staysVisible facts)) n) := by
  have hvisible : ∀ t, s.target? = some t → (facts.about t.name).isHidden = false :=
    fun t ht => (hsense t ht).isHidden_eq
  have hstays := hturn.filter_eq hnames hvisible
  have hstay : staysVisible facts s = true := by
    refine List.filter_eq_self.mp hstays s ?_
    rw [hout]
    exact List.mem_singleton_self s
  -- the names that the two runs look at alike
  have hagree : Env.Agree (fun x => f.Given l front x ∧ ¬ GeneratedFrom f.nextTemp x ∧
      (facts.about x).isHidden = false) m.env n.env := by
    rintro x ⟨hx, hgen, hvis⟩
    obtain ⟨sense, hfinal, -⟩ := hturn.before.sense_of_given hx
    exact (h.names x sense hx hgen hfinal).agree (hfinal.isHidden_eq.symm.trans hvis)
  have hrun := Exec.stmt_alike_assigned d.recording (s := s) (fun v hv =>
    ⟨hf.given_of_uses hturn.begins hv, hnames.used hturn.begins.mem_stmts hv,
      hturn.visible_uses hf hnames hplace (hout ▸ List.mem_singleton_self s) hstay hv⟩)
    h.device hagree
  rw [hstays, hout, Exec.body_cons_apply]
  unfold Front.plain
  cases hm : Exec.stmt d.recording s m.toMachine with
  | error e m' =>
      cases hn : Exec.stmt d.recording s n with
      | error e' n' =>
          rw [hm, hn] at hrun
          have hrequests : m'.requests = n'.requests := congrArg Prod.snd hrun.2
          show m'.requests <+: n'.requests
          exact hrequests ▸ List.prefix_refl m'.requests
      | ok u n' => rw [hm, hn] at hrun; exact hrun.elim
  | ok u m' =>
      cases hn : Exec.stmt d.recording s n with
      | error e' n' => rw [hm, hn] at hrun; exact hrun.elim
      | ok u n' =>
          rw [hm, hn] at hrun
          obtain ⟨-, hdevice, hafter⟩ := hrun
          refine ⟨rfl, h.step hf hnames hturn ?_ ?_ ?_ ?_ ?_⟩
          · rw [FrontMachine.toMachine_after]
            exact hdevice
          · exact fun x hx => m.after_meanings_of_not_assigns m' hx
          · exact fun x hx _ => (Exec.runs_of_stmt hn).lasts hx
          · intro x hx hgen hvis _
            rw [FrontMachine.toMachine_after]
            exact hafter x (Or.inr ⟨hx, hgen, hvis⟩)
          · intro t sense ht his
            cases (hsense t ht).unique his
            refine ⟨fun _ => ?_, m.after_meanings_target m' ht, hholds t n' ht hn⟩
            rw [FrontMachine.toMachine_after]
            exact hafter _ (Or.inl (congrArg (Option.map Var.name) ht))

/-! ### Names in front of a statement -/

include hf hnames hturn h in
theorem Turn.mirrored_file {v : Var} (hv : v ∈ s.uses)
    (hfile : (st.facts.about v.name).file.isSome) :
    m.meaning? v = some .file ∧ m.env[v.name]? = n.env[v.name]? ∧
      ∃ handle, n.env[v.name]? = some (.handle handle) := by
  obtain ⟨sense, his, -, hmirrored⟩ := hturn.mirrored hf hnames h hv
  obtain ⟨origin, rfl⟩ := his.exists_file_eq hfile
  exact ⟨hmirrored.means, hmirrored.agree rfl, hmirrored.holds⟩

include hf hnames hturn h in
theorem Turn.mirrored_method (method : Method) {v file : Var} (hv : v ∈ s.uses)
    (hm : method.of (st.facts.about v.name) = some file) :
    (∃ handle, m.meaning? v = some (.method method (.handle handle)) ∧
      n.env[file.name]? = some (.handle handle)) ∧
      ¬ s.Assigns file.name ∧ ¬ GeneratedFrom st.nextTemp file.name := by
  obtain ⟨sense, his, hground, hmirrored⟩ := hturn.mirrored hf hnames h hv
  cases his.method_eq hm
  exact ⟨hmirrored.means, hturn.refs_apart hf hnames (hf.given_of_uses hturn.begins hv) hground
    (Or.inl rfl)⟩

include hf hnames hturn h in
theorem Turn.mirrored_dataset {v : Var} (hv : v ∈ s.uses) {ref : DatasetRef}
    (hd : (st.facts.about v.name).dataset = some ref) :
    (∃ handle key, m.meaning? v = some (.dataset (.handle handle) key) ∧
      n.env[ref.file.name]? = some (.handle handle) ∧
      ∀ text, key = .str text → n.env[ref.name.name]? = some (.str text)) ∧
      (¬ s.Assigns ref.file.name ∧ ¬ GeneratedFrom st.nextTemp ref.file.name) ∧
      ¬ s.Assigns ref.name.name ∧ ¬ GeneratedFrom st.nextTemp ref.name.name := by
  obtain ⟨sense, his, hground, hmirrored⟩ := hturn.mirrored hf hnames h hv
  have hapart := fun w => hturn.refs_apart hf hnames (hf.given_of_uses hturn.begins hv) hground
    (v := w)
  rcases his.dataset_eq hd with rfl | ⟨dims, rfl⟩
  · exact ⟨hmirrored.means, hapart _ (Or.inl rfl), hapart _ (Or.inr rfl)⟩
  · exact ⟨hmirrored.means, hapart _ (Or.inl rfl), hapart _ (Or.inr rfl)⟩

/-! ### Hidden names -/

include hf hnames hturn h in
/-- A hidden name gets its meaning, and nothing stands for this. -/
theorem Turn.covers_hidden {e : Expr} (hout : out = [.assign t e]) (ht : s.target? = some t)
    (hsense : Is (facts.about t.name) sense) (hhidden : sense.isHidden = true)
    {value : Option Value} {meaning : Option Meaning} (hmeans : sense.Means n.env meaning) :
    Covers FrontMachine.requests Machine.requests (Mirrors f facts l (front ++ [s]))
      (.ok () (m.bind t value meaning))
      (Exec.body d.recording (out.filter (staysVisible facts)) n) := by
  have hnone : out.filter (staysVisible facts) = [] := by
    have hfinal : (facts.about t.name).isHidden = true := hsense.isHidden_eq.trans hhidden
    rw [hout]
    simp [staysVisible, hfinal]
  refine hturn.covers_bind hf hnames h n.env ht hsense ?_ (fun _ _ _ => rfl) ?_ hmeans
    (Sense.holds_of_isHidden hhidden _)
  · rw [hnone]
    rfl
  · intro hvisible
    cases hhidden.symm.trans hvisible

end

/-- The machines after the statement, and after what stands for it. -/
def Covered {σ : Type} (d : Device σ) (f : Function) (catalog : Option Inspector) (facts : Facts)
    (l : Label) (front : List Stmt) (s : Stmt) (st : Expansion) (out : List Stmt)
    (m : FrontMachine (σ × List Request)) (n : Machine (σ × List Request)) : Prop :=
  Covers FrontMachine.requests Machine.requests (Mirrors f facts l (front ++ [s]))
    (Front.stmt d.recording (f.fileScope catalog) st.facts s m)
    (Exec.body d.recording (out.filter (staysVisible facts)) n)

section

variable {σ : Type} {d : Device σ} {f : Function} {catalog : Option Inspector} {facts : Facts}
  {l : Label} {front out : List Stmt} {s : Stmt} {st st' : Expansion}
  {m : FrontMachine (σ × List Request)} {n : Machine (σ × List Request)} {t : Var}
  (hf : f.Ssa) (hnames : f.NamesApart) (hturn : Turn f catalog facts l front s st out st')
  (h : Mirrors f facts l front m n)

include hf hnames hturn h

/-! ### Datasets that are named -/

theorem Turn.covered_constItem {base v : Var} {index : Literal} (hplace : f.FrontEndInPlace)
    (hs : s = .assign t (.constItem base index (some v))) (hout : out = [s])
    (hkey : m.env[v.name]? = some (.ofLiteral index))
    (hfile : (st.facts.about base.name).file.isSome)
    (hsense : Is (facts.about t.name) (.dataset ⟨base, v⟩)) :
    Covered d f catalog facts l front s st out m n := by
  subst hs
  have hindex := hturn.operand_eq hf hnames hplace h (v := v) (by simp [Stmt.operands])
  obtain ⟨hmeaning, hagree, handle, hhandle⟩ :=
    hturn.mirrored_file hf hnames h (List.mem_cons_self ..) hfile
  rw [Covered, Front.stmt_constItem hmeaning]
  refine Front.covers_value h.device hagree fun a ha => ?_
  cases hhandle.symm.trans ha
  refine hturn.covers_hidden hf hnames h hout rfl hsense rfl ⟨handle, _, rfl, hhandle, ?_⟩
  intro text htext
  rw [← htext, ← hindex]
  exact hkey

theorem Turn.covered_constItem_temp {base : Var} {key : String}
    (hs : s = .assign t (.constItem base (.str key) none))
    (hout : out = [.assign (temp (f.fileScope catalog) "dset_name" t.loc st.nextTemp)
      (.const (.str key)), s])
    (hfile : (st.facts.about base.name).file.isSome)
    (hsense : Is (facts.about t.name)
      (.dataset ⟨base, temp (f.fileScope catalog) "dset_name" t.loc st.nextTemp⟩)) :
    Covered d f catalog facts l front s st out m n := by
  subst hs
  obtain ⟨hmeaning, hagree, handle, hhandle⟩ :=
    hturn.mirrored_file hf hnames h (List.mem_cons_self ..) hfile
  -- the constant stays and the name of the dataset goes
  have hstays : out.filter (staysVisible facts) =
      [.assign (temp (f.fileScope catalog) "dset_name" t.loc st.nextTemp) (.const (.str key))] := by
    have hvisible := hturn.before.visible_temp hnames
      (generatedFrom_temp (f.fileScope catalog) "dset_name" t.loc hturn.before.le)
    have hhidden : (facts.about t.name).isHidden = true := hsense.isHidden_eq
    rw [hout]
    simp only [List.filter_cons, staysVisible, hvisible, hhidden]
    rfl
  rw [Covered, hstays, Front.stmt_constItem hmeaning]
  refine Front.covers_value h.device hagree fun a ha => ?_
  cases hhandle.symm.trans ha
  have hother : ∀ x, ¬ GeneratedFrom st.nextTemp x →
      (n.env.insert (Var.tempName "dset_name" st.nextTemp) (.str key))[x]? = n.env[x]? :=
    fun x hx => Env.getElem?_insert_of_ne _ (tempName_ne hx (Nat.le_refl _) _) _
  have hbase : ¬ GeneratedFrom st.nextTemp base.name := fun hgen =>
    hnames.used hturn.begins.mem_stmts (List.mem_cons_self ..) (hgen.mono hturn.before.le)
  rw [← hstays]
  refine hturn.covers_bind hf hnames h _ rfl hsense ?_ (fun x _ hx => hother x hx) ?_ ?_ trivial
  · rw [hstays]
    rfl
  · rintro ⟨⟩
  · refine ⟨handle, .str key, rfl, (hother _ hbase).trans hhandle, ?_⟩
    rintro text ⟨⟩
    exact Env.getElem?_insert_self ..

theorem Turn.covered_item {base index : Var} (hplace : f.FrontEndInPlace)
    (hs : s = .assign t (.item base index)) (hout : out = [s])
    (hfile : (st.facts.about base.name).file.isSome)
    (hsense : Is (facts.about t.name) (.dataset ⟨base, index⟩)) :
    Covered d f catalog facts l front s st out m n := by
  subst hs
  obtain ⟨hmeaning, hagree, handle, hhandle⟩ :=
    hturn.mirrored_file hf hnames h (List.mem_cons_self ..) hfile
  have hindex := hturn.operand_eq hf hnames hplace h (v := index) (List.mem_singleton_self _)
  rw [Covered, Front.stmt_item hmeaning]
  refine Front.covers_value h.device hagree fun a ha => ?_
  cases hhandle.symm.trans ha
  refine Front.covers_value h.device hindex fun key hkey => ?_
  refine hturn.covers_hidden hf hnames h hout rfl hsense rfl ⟨handle, key, rfl, hhandle, ?_⟩
  rintro text rfl
  exact hkey

/-! ### Copies -/

theorem Turn.covered_copy_handle {source : Var} (hs : s = .assign t (.copy source))
    (hout : out = [s]) {sense : Sense} (hsource : Is (st.facts.about source.name) sense)
    (hsense : Is (facts.about t.name) sense) (hvisible : sense.isHidden = false)
    {meaning : Meaning} (hmeaning : m.meaning? source = some meaning)
    (htravels : meaning.travels = true) {handle : Int}
    (hhandle : n.env[source.name]? = some (.handle handle)) :
    Covered d f catalog facts l front s st out m n := by
  subst hs
  have hmem : source ∈ (Stmt.assign t (.copy source)).uses := List.mem_singleton_self source
  obtain ⟨sense', his, hground, hmirrored⟩ := hturn.mirrored hf hnames h hmem
  cases hsource.unique his
  have hstays : out.filter (staysVisible facts) = [.assign t (.copy source)] := by
    rw [hturn.filter_eq hnames, hout]
    rintro t' ⟨⟩
    exact hsense.isHidden_eq.trans hvisible
  have htarget := Env.getElem?_insert_self n.env t.name (.handle handle)
  rw [Covered, Front.stmt_copy hmeaning htravels]
  refine hturn.covers_bind hf hnames h (n.env.insert t.name (.handle handle)) rfl hsense
    ?_ ?_ ?_ ?_ ?_
  · rw [hstays, Exec.body_cons_apply, Exec.stmt_assign_apply, Expr.eval, Env.get, hhandle]
    rfl
  · exact fun x hx _ => Env.getElem?_insert_of_ne _ hx _
  · intro _
    rw [htarget, hmirrored.agree hvisible, hhandle]
  · rw [← hmeaning]
    refine hmirrored.means.lasts fun v hv => Or.inl (Env.getElem?_insert_of_ne _ ?_ _)
    have hapart := hturn.refs_apart hf hnames (hf.given_of_uses hturn.begins hmem) hground hv
    exact ne_of_not_assigns rfl hapart.1
  · have hholds := hmirrored.holds
    rw [hhandle, ← htarget] at hholds
    exact hholds

theorem Turn.covered_copy {source : Var} (hplace : f.FrontEndInPlace)
    (hs : s = .assign t (.copy source)) (hout : out = [s]) {sense : Sense}
    (hsource : Is (st.facts.about source.name) sense)
    (hsense : Is (facts.about t.name) sense.copied) :
    Covered d f catalog facts l front s st out m n := by
  subst hs
  obtain ⟨sense', his, hground, hmirrored⟩ :=
    hturn.mirrored hf hnames h (v := source) (List.mem_singleton_self source)
  cases hsource.unique his
  have htable : ∀ r, sense.role? = some r → (Stmt.assign t (.copy source)).inTable r = true :=
    fun r hr => hplace.head _ hturn.begins.mem_stmts source rfl r (hground.role r hr)
  cases sense with
  | frontEnd => exact nomatch htable _ rfl
  | opener => exact nomatch htable _ rfl
  | method method y => exact nomatch htable _ rfl
  | file origin =>
      obtain ⟨handle, hhandle⟩ := hmirrored.holds
      exact hturn.covered_copy_handle hf hnames h rfl hout hsource hsense rfl hmirrored.means rfl
        hhandle
  | created ref dims =>
      obtain ⟨handle, hhandle⟩ := hmirrored.holds
      obtain ⟨file, key, hmeaning, -⟩ := hmirrored.means
      exact hturn.covered_copy_handle hf hnames h rfl hout hsource hsense rfl hmeaning rfl
        hhandle
  | dataset ref =>
      obtain ⟨file, key, hmeaning, hrest⟩ := hmirrored.means
      rw [Covered, Front.stmt_copy hmeaning rfl]
      exact hturn.covers_hidden hf hnames h hout rfl hsense rfl ⟨file, key, rfl, hrest⟩
  | ordinary dims =>
      have hmeaning : m.meaning? source = none := hmirrored.means
      have hplain : (Expr.copy source) ≠ .global .h5py := nofun
      rw [Covered, Front.stmt_assign_plain hplain (by rintro _ ⟨⟩; exact hmeaning)]
      refine hturn.covers_plain hf hnames hplace h hout (by rintro _ ⟨⟩; exact hsense) ?_
      rintro _ n' ⟨⟩ hrun
      have hholds := hmirrored.holds
      cases dims with
      | none => trivial
      | some dims =>
          obtain ⟨items, hitems, hlength⟩ := hholds
          rw [Exec.stmt_assign_apply, Expr.eval, Env.get, hitems] at hrun
          cases hrun
          exact ⟨items, Env.getElem?_insert_self .., hlength⟩

/-! ### Whole datasets -/

theorem Turn.covered_read {base : Var} {index : Literal} {indexVar : Option Var} {ref : DatasetRef}
    {type : ArrayType} (hs : s = .assign t (.constItem base index indexVar))
    (hout : out = readCode (f.fileScope catalog) t ref type st.nextTemp)
    (hd : (st.facts.about base.name).dataset = some ref) (hi : index.isFullSlice = true)
    (htype : (f.fileScope catalog).resolve st.facts t ref = .ok type)
    (hsense : Is (facts.about t.name) (.ordinary none)) :
    Covered d f catalog facts l front s st out m n := by
  subst hs
  obtain ⟨⟨handle, key, hmeaning, hhandle, hkey⟩, ⟨hfile, gfile⟩, hname, gname⟩ :=
    hturn.mirrored_dataset hf hnames h (v := base) (List.mem_cons_self ..) hd
  have hread : (f.fileScope catalog).readType? st.facts t (.constItem base index indexVar) =
      some type := by
    simp [FileScope.readType?, hd, htype, Except.toOption]
  rw [Covered, Front.stmt_read hmeaning hi hread]
  by_cases htext : ∃ text, key = .str text
  · obtain ⟨text, rfl⟩ := htext
    refine hturn.covers_serve hf hnames h rfl hsense rfl ?_ fun _ _ _ => ⟨rfl, trivial⟩
    rw [hout]
    refine performs_readCode type hhandle (hkey text rfl) gfile gname ?_ ?_ ?_
    · exact fun hgen => hturn.target_not_generated hnames rfl (hgen.mono hturn.before.le)
    · exact ne_of_not_assigns rfl hfile
    · exact ne_of_not_assigns rfl hname
  · refine Front.covers_serve_error h.device ?_ _
    exact d.recording.readWhole_of_not_text (fun text heq => htext ⟨text, heq⟩) type m.device

theorem Turn.covered_write {index : Literal} {value : Var} {ref : DatasetRef} {rank : Nat}
    (hplace : f.FrontEndInPlace) (hs : s = .store t index value)
    (hout : out = transferCode (f.fileScope catalog) .write ref rank (.attr value "shape") value
      t.loc st.nextTemp)
    (hd : (st.facts.about t.name).dataset = some ref) (hi : index.isFullSlice = true)
    (hrank : rankFor (f.fileScope catalog) st.facts t ref value = .ok rank) :
    Covered d f catalog facts l front s st out m n := by
  subst hs
  obtain ⟨⟨handle, key, hmeaning, hhandle, hkey⟩, ⟨-, gfile⟩, -, gname⟩ :=
    hturn.mirrored_dataset hf hnames h (v := t) (List.mem_cons_self ..) hd
  have hwrite : (f.fileScope catalog).writeRank? st.facts t value = some rank := by
    simp [FileScope.writeRank?, hd, hrank, Except.toOption]
  have hvalue := hturn.operand_eq hf hnames hplace h (v := value) (List.mem_singleton_self _)
  have gvalue : ¬ GeneratedFrom st.nextTemp value.name := fun hgen =>
    hnames.used hturn.begins.mem_stmts (Stmt.uses_of_operand (List.mem_singleton_self _))
      (hgen.mono hturn.before.le)
  rw [Covered, Front.stmt_write hmeaning hi hwrite, hturn.filter_eq hnames nofun]
  refine Front.covers_value h.device hvalue fun source hsource => ?_
  by_cases htext : ∃ text, key = .str text
  · obtain ⟨text, rfl⟩ := htext
    rw [hout]
    refine Front.covers_serve h.device (performs_writeCode t.loc hhandle (hkey text rfl) hsource
      gfile gname gvalue) fun _ n' hkeeps => ⟨_, rfl, ?_⟩
    refine h.step hf hnames hturn rfl (fun _ _ => rfl) (fun x _ hx => Or.inl (hkeeps x hx).symm)
      ?_ nofun
    intro x hx hgen hvisible _
    obtain ⟨sense, hfinal, -⟩ := hturn.before.sense_of_given hx
    rw [← hkeeps x fun hx => hgen (hx.mono hturn.before.le)]
    exact (h.names x sense hx hgen hfinal).agree (hfinal.isHidden_eq.symm.trans hvisible)
  · refine Front.covers_serve_error h.device ?_ _
    exact d.recording.writeWhole_of_not_text (fun text heq => htext ⟨text, heq⟩) rank source
      m.device

/-! ### Requests -/

variable {callee : Var} {args : List Var} {kws : List (String × Var)}

/-- Where the callee stands for a request, its arguments are looked at in turn. -/
theorem Turn.covered_openFile {name : Var} (hplace : f.FrontEndInPlace)
    (hs : s = .call t callee args kws)
    (hout : out =
      openCode (f.fileScope catalog) t name st.nextTemp (args[1]? <|> kws.lookup "mode"))
    (hc : (st.facts.about callee.name).opensFiles = true)
    (hn : (args[0]? <|> kws.lookup "name") = some name)
    (hsense : Is (facts.about t.name) (.file (.named name))) :
    Covered d f catalog facts l front s st out m n := by
  subst hs
  obtain ⟨sense, his, -, hmirrored⟩ := hturn.mirrored hf hnames h (v := callee)
    (List.mem_cons_self ..)
  cases his.opener_eq hc
  have hargs := fun v hv => hturn.operand_eq hf hnames hplace h (v := v) hv
  have hgen : ∀ v ∈ args ++ kws.map Prod.snd, ¬ GeneratedFrom st.nextTemp v.name :=
    fun v hv hgen => hnames.used hturn.begins.mem_stmts (Stmt.uses_of_operand hv)
      (hgen.mono hturn.before.le)
  rw [Covered, Front.stmt_openFile hmirrored.means hn]
  refine Front.covers_value h.device (hargs name (mem_of_argument hn)) fun nameValue hname => ?_
  -- what the request is answered with, once the mode is known
  have hopen : ∀ mode modeValue, (args[1]? <|> kws.lookup "mode") = mode →
      openMode n.env mode = some modeValue →
      Covers FrontMachine.requests Machine.requests
        (Mirrors f facts l (front ++ [.call t callee args kws]))
        (Front.request d.recording t .openFile [nameValue, modeValue, .int 0] (some .file) m)
        (Exec.body d.recording (out.filter (staysVisible facts)) n) := by
    intro mode modeValue hmode hvalue
    refine hturn.covers_serve hf hnames h rfl hsense rfl ?_
      fun reply _ _ => ⟨rfl, reply.status, rfl⟩
    rw [hout, hmode]
    refine performs_openCode hname hvalue (hgen name (mem_of_argument hn)) ?_
    rintro v rfl
    exact hgen v (mem_of_argument hmode)
  cases hmode : (args[1]? <|> kws.lookup "mode") with
  | none => exact hopen none (.str "r") hmode rfl
  | some v =>
      exact Front.covers_value h.device (hargs v (mem_of_argument hmode)) fun modeValue hvalue =>
        hopen (some v) modeValue hmode hvalue

theorem Turn.covered_closeFile {file : Var} (hs : s = .call t callee args kws)
    (hout : out = callCode (f.fileScope catalog) .closeFile [file] t st.nextTemp)
    (hc : (st.facts.about callee.name).closes = some file)
    (hsense : Is (facts.about t.name) (.ordinary none)) :
    Covered d f catalog facts l front s st out m n := by
  subst hs
  obtain ⟨⟨handle, hmeaning, hhandle⟩, -, gfile⟩ :=
    hturn.mirrored_method hf hnames h .close (v := callee) (List.mem_cons_self ..) hc
  rw [Covered, Front.stmt_closeFile hmeaning]
  refine hturn.covers_serve hf hnames h rfl hsense rfl ?_ fun _ _ _ => ⟨rfl, trivial⟩
  rw [hout]
  refine performs_callCode_of_ne_read (e := .closeFile) nofun ?_ (by simpa using gfile) rfl
  exact Env.mapM_get_of_forall₂ (.cons hhandle .nil)

theorem Turn.covered_createGroup {file name : Var} (hplace : f.FrontEndInPlace)
    (hs : s = .call t callee args kws)
    (hout : out = callCode (f.fileScope catalog) .createGroup [file, name] t st.nextTemp)
    (hc : (st.facts.about callee.name).makesGroup = some file)
    (hn : (args[0]? <|> kws.lookup "name") = some name)
    (hsense : Is (facts.about t.name) (.file .group)) :
    Covered d f catalog facts l front s st out m n := by
  subst hs
  obtain ⟨⟨handle, hmeaning, hhandle⟩, -, gfile⟩ :=
    hturn.mirrored_method hf hnames h .createGroup (v := callee) (List.mem_cons_self ..) hc
  have hmem : name ∈ args ++ kws.map Prod.snd := mem_of_argument hn
  have gname : ¬ GeneratedFrom st.nextTemp name.name := fun hgen =>
    hnames.used hturn.begins.mem_stmts (Stmt.uses_of_operand hmem) (hgen.mono hturn.before.le)
  rw [Covered, Front.stmt_createGroup hmeaning hn]
  refine Front.covers_value h.device (hturn.operand_eq hf hnames hplace h hmem)
    fun nameValue hname => ?_
  refine hturn.covers_serve hf hnames h rfl hsense rfl ?_
    fun reply _ _ => ⟨rfl, reply.status, rfl⟩
  rw [hout]
  refine performs_callCode_of_ne_read (e := .createGroup) nofun ?_ (by simp [gfile, gname]) rfl
  exact Env.mapM_get_of_forall₂ (.cons hhandle (.cons hname .nil))

theorem Turn.covered_createDataset {file name shape elem : Var} {dims : List Var}
    (hplace : f.FrontEndInPlace) (hs : s = .call t callee args kws)
    (hout : out = createDatasetCode (f.fileScope catalog) t file name shape elem dims.length
      st.nextTemp)
    (hc : (st.facts.about callee.name).makesDataset = some file)
    (hn : (args[0]? <|> kws.lookup "name") = some name)
    (hsh : (args[1]? <|> kws.lookup "shape") = some shape)
    (he : (kws.lookup "dtype" <|> args[2]?) = some elem)
    (hd : (st.facts.about shape.name).tuple = some dims)
    (hsense : Is (facts.about t.name) (.created ⟨file, name⟩ dims)) :
    Covered d f catalog facts l front s st out m n := by
  subst hs
  obtain ⟨⟨handle, hmeaning, hhandle⟩, hfile, gfile⟩ :=
    hturn.mirrored_method hf hnames h .createDataset (v := callee) (List.mem_cons_self ..) hc
  have hargs := fun v hv => hturn.operand_eq hf hnames hplace h (v := v) hv
  have hgen : ∀ v ∈ args ++ kws.map Prod.snd, ¬ GeneratedFrom st.nextTemp v.name :=
    fun v hv hgen => hnames.used hturn.begins.mem_stmts (Stmt.uses_of_operand hv)
      (hgen.mono hturn.before.le)
  have hmemname := mem_of_argument hn
  have hmemshape := mem_of_argument hsh
  have hmemelem := mem_of_keyword he
  -- the shape is a tuple of the length that was seen
  obtain ⟨sense, his, -, hmirrored⟩ := hturn.mirrored hf hnames h (Stmt.uses_of_operand hmemshape)
  cases his.tuple_eq hd
  obtain ⟨items, hitems, hlength⟩ := hmirrored.holds
  rw [Covered, Front.stmt_createDataset hmeaning hn hsh he]
  refine Front.covers_value h.device (hargs name hmemname) fun nameValue hname => ?_
  refine Front.covers_value h.device (hargs shape hmemshape) fun shapeValue hshape => ?_
  refine Front.covers_value h.device (hargs elem hmemelem) fun elemValue helem => ?_
  cases hitems.symm.trans hshape
  refine hturn.covers_serve hf hnames h rfl hsense rfl ?_ ?_
  · rw [hout, hlength]
    refine performs_createDatasetCode hhandle hname hitems helem ?_
    simp only [List.forall_mem_cons]
    exact ⟨gfile, hgen _ hmemname, hgen _ hmemshape, hgen _ hmemelem, by simp⟩
  · intro reply env henv
    have hkept : ∀ x, t.name ≠ x → ¬ GeneratedFrom st.nextTemp x → env[x]? = n.env[x]? := by
      intro x hx hgen
      rw [← henv x hgen, Env.getElem?_insert_of_ne _ hx]
    refine ⟨⟨handle, nameValue, rfl, ?_, ?_⟩, reply.status, rfl⟩
    · exact (hkept _ (ne_of_not_assigns rfl hfile) gfile).trans hhandle
    · rintro text rfl
      refine (hkept _ ?_ (hgen _ hmemname)).trans hname
      exact ne_of_not_assigns rfl (hf.not_assigns_of_given hturn.begins
        (hf.given_of_uses hturn.begins (Stmt.uses_of_operand hmemname)))

/-! ### Any statement -/

theorem Turn.meaning_cases {v : Var} (hv : v ∈ s.uses)
    (hvisible : (facts.about v.name).isHidden = false) :
    m.meaning? v = none ∨ ((st.facts.about v.name).file.isSome ∧ m.meaning? v = some .file) ∨
      ((st.facts.about v.name).dataset.isSome ∧
        ∃ file key, m.meaning? v = some (.dataset file key)) := by
  obtain ⟨sense, hfinal, -, -⟩ := hturn.sense_of_uses hf hv
  obtain ⟨sense', his, -, hmirrored⟩ := hturn.mirrored hf hnames h hv
  have hrole := hturn.before.final _ (hf.given_of_uses hturn.begins hv)
  cases hfinal.unique (hrole.symm.trans his)
  rw [hfinal.isHidden_eq] at hvisible
  have hmeans := hmirrored.means
  cases sense with
  | ordinary dims => exact Or.inl hmeans
  | file origin =>
      have hfile : (st.facts.about v.name).file = some origin := congrArg Known.file his
      exact Or.inr (Or.inl ⟨by rw [hfile]; rfl, hmeans⟩)
  | created ref dims =>
      have hdataset : (st.facts.about v.name).dataset = some ref := congrArg Known.dataset his
      obtain ⟨file, key, hmeaning, -⟩ := hmeans
      exact Or.inr (Or.inr ⟨by rw [hdataset]; rfl, _, _, hmeaning⟩)
  | frontEnd => cases hvisible
  | opener => cases hvisible
  | method method y => cases hvisible
  | dataset ref => cases hvisible

theorem Turn.stmt_plain {value : Expr} (hplace : f.FrontEndInPlace) (hs : s = .assign t value)
    (hplain : Plain st value) :
    Front.stmt d.recording (f.fileScope catalog) st.facts s m = Front.plain d.recording s m := by
  have hmeaning := fun v hv => hturn.meaning_cases hf hnames h hv
    (hturn.visible_plain hf hplace hs hplain hv) (v := v)
  subst hs
  -- a head that is neither a file nor a dataset is ordinary
  have hordinary : ∀ v ∈ (Stmt.assign t value).uses, (st.facts.about v.name).file = none →
      (st.facts.about v.name).dataset = none → m.meaning? v = none := by
    intro v hv hfile hd
    rcases hmeaning v hv with hnone | ⟨hsome, -⟩ | ⟨hsome, -⟩
    · exact hnone
    · rw [hfile] at hsome
      cases hsome
    · rw [hd] at hsome
      cases hsome
  cases hplain with
  | global hm => exact Front.stmt_assign_plain (by simpa using hm) nofun
  | alloc shape elem => rfl
  | @frontEndAttr base name hb hn =>
      obtain ⟨sense, his, -, hmirrored⟩ := hturn.mirrored hf hnames h (List.mem_singleton_self base)
      cases his.frontEnd_eq hb
      exact Front.stmt_attr_plain (Or.inr (Or.inr (Or.inr ⟨hmirrored.means, hn⟩)))
  | @keys base hb hfile =>
      obtain ⟨hfront, -⟩ := hturn.mirrored_file hf hnames h (List.mem_singleton_self base) hfile
      exact Front.stmt_attr_plain (Or.inr (Or.inr (Or.inl ⟨hfront, by decide⟩)))
  | @attr base name hb hfile =>
      rcases hmeaning base (List.mem_singleton_self base) with hnone | ⟨hsome, -⟩ | ⟨-, hdataset⟩
      · exact Front.stmt_attr_plain (Or.inl hnone)
      · rw [show (st.facts.about base.name).file = none from hfile] at hsome
        cases hsome
      · exact Front.stmt_attr_plain (Or.inr (Or.inl hdataset))
  | @constItem base index indexVar hfile hd =>
      refine Front.stmt_assign_plain nofun ?_
      rintro v ⟨⟩
      exact hordinary base (List.mem_cons_self ..) hfile hd
  | @item base index hfile hd =>
      refine Front.stmt_assign_plain nofun ?_
      rintro v ⟨⟩
      exact hordinary base (List.mem_cons_self ..) hfile hd

theorem Turn.covered_plain (hplace : f.FrontEndInPlace) (hout : out = [s])
    (hsense : ∀ t, s.target? = some t → Is (facts.about t.name) (.ordinary none))
    (hstmt : Front.stmt d.recording (f.fileScope catalog) st.facts s m =
      Front.plain d.recording s m) : Covered d f catalog facts l front s st out m n := by
  rw [Covered, hstmt]
  exact hturn.covers_plain hf hnames hplace h hout hsense fun _ _ _ _ => trivial

theorem Turn.covered_opener {base : Var} (hs : s = .assign t (.attr base "File")) (hout : out = [s])
    (hb : (st.about base).isFrontEnd = true) (hsense : Is (facts.about t.name) .opener) :
    Covered d f catalog facts l front s st out m n := by
  subst hs
  obtain ⟨sense, his, -, hmirrored⟩ := hturn.mirrored hf hnames h (List.mem_singleton_self base)
  cases his.frontEnd_eq hb
  rw [Covered, Front.stmt_opener hmirrored.means]
  exact hturn.covers_hidden hf hnames h hout rfl hsense rfl rfl

theorem Turn.covered_method {base : Var} {method : Method}
    (hs : s = .assign t (.attr base method.name)) (hout : out = [s])
    (hfile : (st.about base).file.isSome) (hsense : Is (facts.about t.name) (.method method base)) :
    Covered d f catalog facts l front s st out m n := by
  subst hs
  obtain ⟨hmeaning, hagree, handle, hhandle⟩ :=
    hturn.mirrored_file hf hnames h (List.mem_singleton_self base) hfile
  rw [Covered, Front.stmt_method hmeaning]
  refine Front.covers_value h.device hagree fun a ha => ?_
  cases hhandle.symm.trans ha
  exact hturn.covers_hidden hf hnames h hout rfl hsense rfl ⟨handle, rfl, hhandle⟩

theorem Turn.covered_tuple {items : List Var} (hplace : f.FrontEndInPlace)
    (hs : s = .assign t (.tuple items)) (hout : out = [s])
    (hsense : Is (facts.about t.name) (.ordinary (some items))) :
    Covered d f catalog facts l front s st out m n := by
  subst hs
  refine hturn.covers_plain hf hnames hplace h hout (by rintro _ ⟨⟩; exact hsense) ?_
  rintro _ n' ⟨⟩ hrun
  rw [Exec.stmt_assign_apply, Expr.eval] at hrun
  cases hitems : items.mapM n.env.get with
  | error e =>
      rw [hitems] at hrun
      cases hrun
  | ok values =>
      rw [hitems] at hrun
      cases hrun
      exact ⟨values, Env.getElem?_insert_self .., length_of_mapM_ok hitems⟩

theorem Turn.covered_call {callee : Var} {args : List Var} {kws : List (String × Var)}
    (hplace : f.FrontEndInPlace) (hs : s = .call t callee args kws) (hout : out = [s])
    (hsense : Is (facts.about t.name) (.ordinary none)) :
    Covered d f catalog facts l front s st out m n := by
  subst hs hout
  have hcallee : (facts.about callee.name).isHidden = false :=
    hturn.visible_uses hf hnames hplace (List.mem_singleton_self _) rfl (List.mem_cons_self ..)
  refine hturn.covered_plain hf hnames h hplace rfl (by rintro _ ⟨⟩; exact hsense)
    (Front.stmt_call_plain ?_)
  rcases hturn.meaning_cases hf hnames h (v := callee) (List.mem_cons_self ..) hcallee with
    hnone | ⟨-, hfile⟩ | ⟨-, hdataset⟩
  · exact Or.inl hnone
  · exact Or.inr (Or.inr hfile)
  · exact Or.inr (Or.inl hdataset)

theorem Turn.covered_store {index : Literal} {value : Var} (hplace : f.FrontEndInPlace)
    (hs : s = .store t index value) (hout : out = [s]) (hfile : (st.about t).file = none)
    (hd : (st.about t).dataset = none) : Covered d f catalog facts l front s st out m n := by
  subst hs hout
  have htarget : (facts.about t.name).isHidden = false :=
    hturn.visible_uses hf hnames hplace (List.mem_singleton_self _) rfl (List.mem_cons_self ..)
  refine hturn.covered_plain hf hnames h hplace rfl (by rintro _ ⟨⟩) (Front.stmt_store_plain ?_)
  rcases hturn.meaning_cases hf hnames h (v := t) (List.mem_cons_self ..) htarget with
    hnone | ⟨hsome, -⟩ | ⟨hsome, -⟩
  · exact hnone
  · rw [show (st.facts.about t.name).file = none from hfile] at hsome
    cases hsome
  · rw [show (st.facts.about t.name).dataset = none from hd] at hsome
    cases hsome

/-- Whatever a statement is, the machines go on together. -/
theorem Turn.covered (hplace : f.FrontEndInPlace)
    (hkey : ∀ t base index v, s = .assign t (.constItem base index (some v)) →
      m.env[v.name]? = some (.ofLiteral index)) :
    Covered d f catalog facts l front s st out m n := by
  have hfinal : ∀ {t sense}, s.target? = some t → Is (st'.facts.about t.name) sense →
      Is (facts.about t.name) sense := fun ht hsense => (hturn.final_target ht).trans hsense
  have hblank : ∀ {t}, s.target? = some t → (st.facts.about t.name).role = {} :=
    fun ht => hturn.blank_target ht
  have hexp := hturn.expands
  cases hexp with
  | frontEnd t =>
      exact hturn.covers_hidden hf hnames h rfl rfl
        (hfinal rfl (is_learn (s := .frontEnd) (hblank rfl) fun _ _ => rfl)) rfl rfl
  | opener t base hb =>
      exact hturn.covered_opener hf hnames h rfl rfl hb
        (hfinal rfl (is_learn (hblank rfl) fun _ _ => rfl))
  | method t base method hb hfile =>
      exact hturn.covered_method hf hnames h rfl rfl hfile
        (hfinal rfl (is_learn (hblank rfl) fun _ _ => by cases method <;> rfl))
  | datasetVar t base v index hfile =>
      exact hturn.covered_constItem hf hnames h hplace rfl rfl (hkey _ _ _ _ rfl) hfile (hfinal rfl
        (is_learn ((role_noteConst st.facts v index _).trans (hblank rfl)) fun _ _ => rfl))
  | datasetKey t base key hfile =>
      exact hturn.covered_constItem_temp hf hnames h rfl rfl hfile (hfinal rfl
        (is_learn ((role_noteConst st.facts _ (.str key) _).trans (hblank rfl)) fun _ _ => rfl))
  | read t base index indexVar ref type hfile hd hi htype =>
      exact hturn.covered_read hf hnames h rfl rfl hd hi htype (hfinal rfl (hblank rfl))
  | datasetItem t base index hfile =>
      exact hturn.covered_item hf hnames h hplace rfl rfl hfile
        (hfinal rfl (is_learn (hblank rfl) fun _ _ => rfl))
  | tuple t items =>
      exact hturn.covered_tuple hf hnames h hplace rfl rfl
        (hfinal rfl (is_learn (hblank rfl) fun _ _ => rfl))
  | copy t source =>
      obtain ⟨sense, his, -, -⟩ := hturn.mirrored hf hnames h (List.mem_singleton_self source)
      exact hturn.covered_copy hf hnames h hplace rfl rfl his (hfinal rfl
        ((congrArg Known.role (about_learn_self ..)).trans (role_inherit (hblank rfl) his)))
  | const t lit =>
      refine hturn.covered_plain hf hnames h hplace rfl ?_ rfl
      rintro _ ⟨⟩
      exact hfinal rfl ((role_noteConst st.facts t lit _).trans (hblank rfl))
  | plain t value hvalue =>
      refine hturn.covered_plain hf hnames h hplace rfl ?_
        (hturn.stmt_plain hf hnames h hplace rfl hvalue)
      rintro _ ⟨⟩
      exact hfinal rfl (hblank rfl)
  | openFile t callee args kws name hc hn =>
      exact hturn.covered_openFile hf hnames h hplace rfl rfl hc hn
        (hfinal rfl (is_learn (hblank rfl) fun _ _ => rfl))
  | closeFile t callee args kws file ho hc =>
      exact hturn.covered_closeFile hf hnames h rfl rfl hc (hfinal rfl (hblank rfl))
  | createDataset t callee args kws file name shape elem dims ho hx hc hn hs he hd =>
      exact hturn.covered_createDataset hf hnames h hplace rfl rfl hc hn hs he hd
        (hfinal rfl (is_learn (hblank rfl) fun _ _ => rfl))
  | createGroup t callee args kws file name ho hx hy hc hn =>
      exact hturn.covered_createGroup hf hnames h hplace rfl rfl hc hn
        (hfinal rfl (is_learn (hblank rfl) fun _ _ => rfl))
  | call t callee args kws hc =>
      exact hturn.covered_call hf hnames h hplace rfl rfl (hfinal rfl (hblank rfl))
  | write t index value ref rank hfile hd hi hrank =>
      exact hturn.covered_write hf hnames h hplace rfl rfl hd hi hrank
  | store t index value hfile hd =>
      exact hturn.covered_store hf hnames h hplace rfl rfl hfile hd

end

end Expand

end SpmdArrays
