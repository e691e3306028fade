import SpmdArrays.Proofs.Exec.Definers
import SpmdArrays.Proofs.FileCalls.HiddenNames

/-!
Two machines at one place of a function: one that runs the function as it is written and
one that runs what stands for it. They hold the same under the names that are given at
the place and not hidden, and what a given name stands for in the first machine is found
in the second one under the variables that the sense of the name speaks of. Whatever a
statement does to the two machines, the names that it does not assign go on like that,
because these variables are given too and hold no arrays.
-/

namespace SpmdArrays

namespace Expand

/-! ### Names and what they stand for -/

/-- What a name of this sense stands for, found in the variables. A key that is no text
names no dataset and need not be found again. -/
def Sense.Means (env : Env) : Sense → Option Meaning → Prop
  | .ordinary _, meaning => meaning = none
  | .frontEnd, meaning => meaning = some .frontEnd
  | .opener, meaning => meaning = some .opener
  | .method m y, meaning =>
    ∃ h, meaning = some (.method m (.handle h)) ∧ env[y.name]? = some (.handle h)
  | .file _, meaning => meaning = some .file
  | .dataset d, meaning | .created d _, meaning =>
    ∃ h key, meaning = some (.dataset (.handle h) key) ∧ env[d.file.name]? = some (.handle h) ∧
      ∀ text, key = .str text → env[d.name.name]? = some (.str text)

/-- What a name of this sense holds. -/
def Sense.Holds : Sense → Option Value → Prop
  | .file _, value | .created .., value => ∃ h, value = some (.handle h)
  | .ordinary (some dims), value =>
    ∃ items, value = some (.tuple items) ∧ items.length = dims.length
  | _, _ => True

theorem Sense.Means.lasts {s : Sense} {env env' : Env} {meaning : Option Meaning}
    (h : s.Means env meaning)
    (hrefs : ∀ v, s.file? = some v ∨ s.key? = some v → Env.Lasts env env' v.name) :
    s.Means env' meaning := by
  -- a dataset is found by its handle and its key
  have hdataset : ∀ d : DatasetRef, Env.Lasts env env' d.file.name →
      Env.Lasts env env' d.name.name →
      (Sense.dataset d).Means env meaning → (Sense.dataset d).Means env' meaning := by
    rintro d hfile hname ⟨h, key, hmeaning, hhandle, hkey⟩
    exact ⟨h, key, hmeaning, hfile.eq hhandle nofun,
      fun text htext => hname.eq (hkey text htext) nofun⟩
  cases s with
  | method m y =>
      obtain ⟨handle, hmeaning, hhandle⟩ := h
      exact ⟨handle, hmeaning, (hrefs y (Or.inl rfl)).eq hhandle nofun⟩
  | dataset d => exact hdataset d (hrefs _ (Or.inl rfl)) (hrefs _ (Or.inr rfl)) h
  | created d dims => exact hdataset d (hrefs _ (Or.inl rfl)) (hrefs _ (Or.inr rfl)) h
  | _ => exact h

theorem Sense.Holds.lasts {s : Sense} {env env' : Env} {x : String} (h : s.Holds env[x]?)
    (hx : Env.Lasts env env' x) : s.Holds env'[x]? := by
  cases s with
  | file origin =>
      obtain ⟨handle, hhandle⟩ := h
      exact ⟨handle, hx.eq hhandle nofun⟩
  | created d dims =>
      obtain ⟨handle, hhandle⟩ := h
      exact ⟨handle, hx.eq hhandle nofun⟩
  | ordinary dims =>
      cases dims with
      | none => trivial
      | some dims =>
          obtain ⟨items, hitems, hlength⟩ := h
          exact ⟨items, hx.eq hitems nofun, hlength⟩
  | _ => trivial

theorem Sense.holds_of_isHidden {s : Sense} (h : s.isHidden = true) (value : Option Value) :
    s.Holds value := by
  cases s with
  | ordinary dims => cases h
  | file origin => cases h
  | created d dims => cases h
  | _ => trivial

/-- A name of this sense, in both machines. -/
structure Mirrored {σ : Type} (m : FrontMachine σ) (n : Machine σ) (x : String) (s : Sense) :
    Prop where
  agree : s.isHidden = false → m.env[x]? = n.env[x]?
  means : s.Means n.env m.meanings[x]?
  holds : s.Holds n.env[x]?

/-- The machines at a place of the function. -/
structure Mirrors {σ : Type} (f : Function) (facts : Facts) (l : Label) (front : List Stmt)
    (m : FrontMachine σ) (n : Machine σ) : Prop where
  device : m.device = n.device
  names : ∀ x s, f.Given l front x → ¬ GeneratedFrom f.nextTemp x → Is (facts.about x) s →
    Mirrored m n x s

section

variable {σ : Type} {f : Function} {catalog : Option Inspector} {facts : Facts} {l : Label}
  {front out : List Stmt} {s : Stmt} {st st' : Expansion} {m m' : FrontMachine σ}
  {n n' : Machine σ}

theorem mirrors_begin (hentry : f.entry < f.blocks.size) (hsite : Site f facts f.entry [] st)
    (args : List Value) (s : σ) :
    Mirrors f facts f.entry [] (f.beginAsWritten args s) (f.begin args (s, [])) where
  device := rfl
  names x sense hx _ his := by
    have hnot : x ∉ definedNames f.stmts := Function.not_mem_of_given_entry hentry hx
    cases his.eq_ordinary ((hsite.final x hx).symm.trans (hsite.unassigned x hnot))
    exact ⟨fun _ => rfl, Std.TreeMap.getElem?_emptyc, trivial⟩

/-- What is given behind a jump was given before it. -/
theorem Mirrors.jump {k : Label} {b b' : Block} (h : Mirrors f facts l b.body m n)
    (hb : f.block? l = some b) (hk : k ∈ b.term.successors) (hb' : f.block? k = some b') :
    Mirrors f facts k [] m n where
  device := h.device
  names x s hx := h.names x s (hx.of_jump hb hk hb')

variable (hf : f.Ssa) (hnames : f.NamesApart) (hturn : Turn f catalog facts l front s st out st')

include hf hnames hturn in
/-- The statement assigns nothing that the sense of a given name speaks of. -/
theorem Turn.refs_apart {x : String} (hx : f.Given l front x) {sense : Sense}
    (hground : Grounded f st x sense) {v : Var}
    (hv : sense.file? = some v ∨ sense.key? = some v) :
    ¬ s.Assigns v.name ∧ ¬ GeneratedFrom st.nextTemp v.name := by
  have hgiven : f.Follows x v.name → ¬ s.Assigns v.name := fun hfollows =>
    hf.not_assigns_of_given hturn.begins (hfollows l front hturn.begins.left hx)
  rcases hv with hv | hv
  · obtain ⟨hfollows, hgen, -⟩ := hground.file v hv
    exact ⟨hgiven hfollows, fun h => hgen (h.mono hturn.before.le)⟩
  · rcases hground.key v hv with ⟨hfollows, u, hu, hmem⟩ | ⟨hgen, hfresh⟩
    · refine ⟨hgiven hfollows, fun h => ?_⟩
      exact hnames.used hu (Stmt.uses_of_operand hmem) (h.mono hturn.before.le)
    · refine ⟨fun hassigns => ?_, hfresh⟩
      exact hnames.defined _ (mem_definedNames hturn.begins.mem_stmts hassigns) hgen

include hf hnames hturn in
/-- A statement keeps the machines together if it leaves alone what it does not assign
and gives its target what the sense of the target asks for. -/
theorem Mirrors.step (h : Mirrors f facts l front m n) (hdevice : m'.device = n'.device)
    (hmeanings : ∀ x, ¬ s.Assigns x → m'.meanings[x]? = m.meanings[x]?)
    (hlasts : ∀ x, ¬ s.Assigns x → ¬ GeneratedFrom st.nextTemp x → Env.Lasts n.env n'.env x)
    (hagree : ∀ x, f.Given l front x → ¬ GeneratedFrom f.nextTemp x →
      (facts.about x).isHidden = false → ¬ s.Assigns x → m'.env[x]? = n'.env[x]?)
    (htarget : ∀ t sense, s.target? = some t → Is (facts.about t.name) sense →
      Mirrored m' n' t.name sense) :
    Mirrors f facts l (front ++ [s]) m' n' where
  device := hdevice
  names x sense hx hgen his := by
    rcases Function.given_append_singleton hx with hx | hassigns
    · have hnot : ¬ s.Assigns x := hf.not_assigns_of_given hturn.begins hx
      have hold := h.names x sense hx hgen his
      have hx' : Env.Lasts n.env n'.env x :=
        hlasts x hnot fun h => hgen (h.mono hturn.before.le)
      obtain ⟨sense', hsense', -, hground⟩ := hturn.before.sense_of_given hx
      cases his.unique hsense'
      refine ⟨fun hvisible => ?_, ?_, hold.holds.lasts hx'⟩
      · exact hagree x hx hgen (his.isHidden_eq.trans hvisible) hnot
      · rw [hmeanings x hnot]
        refine hold.means.lasts fun v hv => ?_
        obtain ⟨hv, hvgen⟩ := hturn.refs_apart hf hnames hx hground hv
        exact hlasts v.name hv hvgen
    · obtain ⟨t, ht, rfl⟩ := Option.map_eq_some_iff.mp hassigns
      exact htarget t sense ht his

end

end Expand

end SpmdArrays
