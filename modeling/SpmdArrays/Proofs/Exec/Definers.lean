import SpmdArrays.Proofs.Exec.Reached
import SpmdArrays.Proofs.FileCalls.SingleAssignment
import SpmdArrays.Proofs.Store.Handles

/-!
What a settled name can hold. Whatever path a run takes, a value of a name that
only one statement assigns was made by this statement, so a text that the
statement puts there is the text it holds, and a handle stands for the source
that the statement opened. Buffers may be assigned anywhere else as well: what
counts for them is the allocation just before the read.
-/

namespace SpmdArrays

/-- The name can only hold this text. -/
inductive HoldsText (e : Function) : String → String → Prop
  | const {t : Var} {x text : String} (h : .assign t (.const (.str text)) ∈ e.stmts)
      (hx : t.name = x) (hset : e.Settled x) : HoldsText e x text
  | copy {t source : Var} {x text : String} (h : .assign t (.copy source) ∈ e.stmts)
      (hx : t.name = x) (hset : e.Settled x) (hs : HoldsText e source.name text) :
      HoldsText e x text

/-- The name can only hold the entry point. -/
structure HoldsEntry (e : Function) (x : String) (p : EntryPoint) : Prop where
  load : ∃ t base, .assign t (.attr base p.name) ∈ e.stmts ∧ t.name = x
  settled : e.Settled x

/-- The expression is no entry point, whatever the variables hold. The opening function
of the front end is none either, since it does not exist when a program runs. -/
def Expr.isNoEntry : Expr → Bool
  | .attr _ name => (EntryPoint.ofName? name).isNone
  | .global _ | .const _ | .tuple _ | .alloc .. => true
  | .constItem .. | .item .. | .copy _ => false

/-- The name can hold no entry point, so that a run stops at a call of it. -/
inductive HoldsNoEntry (e : Function) : String → Prop
  | made {t : Var} {value : Expr} {x : String} (h : .assign t value ∈ e.stmts) (hx : t.name = x)
      (hset : e.Settled x) (hvalue : value.isNoEntry = true) : HoldsNoEntry e x
  /-- Calls return handles and numbers. -/
  | returned {t callee : Var} {args : List Var} {kws : List (String × Var)} {x : String}
      (h : .call t callee args kws ∈ e.stmts) (hx : t.name = x) (hset : e.Settled x) :
      HoldsNoEntry e x
  | copy {t source : Var} {x : String} (h : .assign t (.copy source) ∈ e.stmts) (hx : t.name = x)
      (hset : e.Settled x) (hs : HoldsNoEntry e source.name) : HoldsNoEntry e x

/-- The name can only hold a handle of a source, opened for reading under the
text that the variable holds. -/
inductive HoldsFile (e : Function) : String → Var → Prop
  | openFile {t callee name mode parallel : Var} {x : String}
      (hload : HoldsEntry e callee.name .openFile)
      (h : .call t callee [name, mode, parallel] [] ∈ e.stmts) (hx : t.name = x)
      (hset : e.Settled x) (hmode : HoldsText e mode.name "r") : HoldsFile e x name
  | copy {t source name : Var} {x : String} (h : .assign t (.copy source) ∈ e.stmts)
      (hx : t.name = x) (hset : e.Settled x) (hs : HoldsFile e source.name name) :
      HoldsFile e x name

/-- The value is one that the statement assigning the name can have made. -/
structure Fits (e : Function) (s : Store) (x : String) (v : Value) : Prop where
  text : ∀ text, HoldsText e x text → v = .str text
  entry : ∀ p, HoldsEntry e x p → v = .entry p
  noEntry : HoldsNoEntry e x → ∀ p, v ≠ .entry p
  file : ∀ name source, HoldsFile e x name → HoldsText e name.name source →
    ∃ h, v = .handle h ∧ s.handles[h]? = some (.location source "")

def FitsAll (e : Function) (s : Store) (env : Env) : Prop :=
  ∀ x v, env[x]? = some v → Fits e s x v

section

variable {e : Function} {s t : Store} {env : Env} {x : String} {v : Value}

theorem HoldsText.defined {text : String} (h : HoldsText e x text) :
    x ∈ definedNames e.stmts ∧ e.Settled x := by
  cases h with
  | const h hx hset => exact ⟨mem_definedNames h (congrArg some hx), hset⟩
  | copy h hx hset _ => exact ⟨mem_definedNames h (congrArg some hx), hset⟩

theorem HoldsFile.defined {name : Var} (h : HoldsFile e x name) :
    x ∈ definedNames e.stmts ∧ e.Settled x := by
  cases h with
  | openFile _ h hx hset _ => exact ⟨mem_definedNames h (congrArg some hx), hset⟩
  | copy h hx hset _ => exact ⟨mem_definedNames h (congrArg some hx), hset⟩

theorem HoldsNoEntry.defined (h : HoldsNoEntry e x) :
    x ∈ definedNames e.stmts ∧ e.Settled x := by
  cases h with
  | made h hx hset _ => exact ⟨mem_definedNames h (congrArg some hx), hset⟩
  | returned h hx hset => exact ⟨mem_definedNames h (congrArg some hx), hset⟩
  | copy h hx hset _ => exact ⟨mem_definedNames h (congrArg some hx), hset⟩

theorem fits_of_param (h : x ∈ e.params) (s : Store) (v : Value) : Fits e s x v where
  text _ ht := absurd ht.defined.1 (ht.defined.2.param h)
  entry _ hp := by
    obtain ⟨t, base, ht, hx⟩ := hp.load
    exact absurd (mem_definedNames ht (congrArg some hx)) (hp.settled.param h)
  noEntry hn := absurd hn.defined.1 (hn.defined.2.param h)
  file _ _ hn _ := absurd hn.defined.1 (hn.defined.2.param h)

theorem Fits.extends (h : Fits e s x v) (hst : s.Extends t) : Fits e t x v :=
  { h with
    file := fun name source hn hs => by
      obtain ⟨n, hv, hn⟩ := h.file name source hn hs
      exact ⟨n, hv, hst.handles n _ hn⟩ }

theorem Fits.of_array {a : ArrayValue} (h : Fits e s x (.array a)) (b : ArrayValue) :
    Fits e s x (.array b) where
  text text ht := nomatch h.text text ht
  entry p hp := nomatch h.entry p hp
  noEntry _ _ := nofun
  file name source hn hs := by
    obtain ⟨n, hv, -⟩ := h.file name source hn hs
    cases hv

theorem FitsAll.insert (h : FitsAll e s env) (hv : Fits e s x v) :
    FitsAll e s (env.insert x v) := by
  intro y w hw
  rw [Env.getElem?_insert] at hw
  split at hw
  · rename_i hy
    subst hy
    cases hw
    exact hv
  · exact h y w hw

theorem FitsAll.extends (h : FitsAll e s env) (hst : s.Extends t) : FitsAll e t env :=
  fun y w hw => (h y w hw).extends hst

/-! ### Assignments -/

theorem Value.attr_entry {base v : Value} {e : EntryPoint} (h : base.attr e.name = .ok v) :
    v = .entry e := by
  unfold Value.attr at h
  split at h
  · rw [EntryPoint.ofName?_name] at h
    cases h
    rfl
  · split at h
    · rename_i hshape
      exact absurd hshape (by cases e <;> decide)
    · cases h
  · cases h

theorem Value.attr_ne_entry {base v : Value} {name : String}
    (hname : (EntryPoint.ofName? name).isNone = true) (h : base.attr name = .ok v)
    (p : EntryPoint) : v ≠ .entry p := by
  unfold Value.attr at h
  split at h
  · rw [Option.isNone_iff_eq_none.mp hname] at h
    cases h
  · split at h
    · cases h
      exact nofun
    · cases h
  · cases h

theorem ok_of_mapError_ok {α ε ε' : Type} {g : ε → ε'} {r : Except ε α} {a : α}
    (h : r.mapError g = .ok a) : r = .ok a := by
  cases r <;> cases h
  rfl

theorem Expr.eval_ne_entry {value : Expr} (hvalue : value.isNoEntry = true)
    (hv : value.eval env = .ok v) (p : EntryPoint) : v ≠ .entry p := by
  cases value with
  | global name =>
      cases hv
      exact nofun
  | const lit =>
      cases hv
      cases lit <;> exact nofun
  | tuple items =>
      obtain ⟨vs, -, h₁⟩ := exists_of_bind_ok hv
      cases h₁
      exact nofun
  | attr base name =>
      obtain ⟨b, -, h₁⟩ := exists_of_bind_ok hv
      exact Value.attr_ne_entry hvalue (ok_of_mapError_ok h₁) p
  | alloc shape elem =>
      obtain ⟨dims, -, h₁⟩ := exists_of_bind_ok hv
      obtain ⟨a, -, h₂⟩ := exists_of_bind_ok h₁
      cases h₂
      exact nofun
  | constItem base index indexVar => cases hvalue
  | item base index => cases hvalue
  | copy source => cases hvalue

theorem EntryPoint.result_ne_entry (q : EntryPoint) (status : Int) (p : EntryPoint) :
    q.result status ≠ .entry p := by
  cases q <;> exact nofun

/-- An assignment makes what its name can hold. -/
theorem fits_of_eval {target : Var} {value : Expr} (hmem : .assign target value ∈ e.stmts)
    (hv : value.eval env = .ok v) (h : FitsAll e s env) : Fits e s target.name v := by
  constructor
  · intro text ht
    cases ht with
    | const hc hx hset =>
        cases hset.eq_of_assigns hc hmem (congrArg some hx) rfl
        cases hv
        rfl
    | copy hc hx hset hs =>
        cases hset.eq_of_assigns hc hmem (congrArg some hx) rfl
        exact (h _ _ (Env.get_ok (ok_of_mapError_ok hv))).text text hs
  · rintro p ⟨⟨t, base, ht, hx⟩, hset⟩
    cases hset.eq_of_assigns ht hmem (congrArg some hx) rfl
    obtain ⟨b, -, h₁⟩ := exists_of_bind_ok hv
    exact Value.attr_entry (ok_of_mapError_ok h₁)
  · intro hn
    cases hn with
    | made hm hx hset hvalue =>
        cases hset.eq_of_assigns hm hmem (congrArg some hx) rfl
        exact Expr.eval_ne_entry hvalue hv
    | returned hc hx hset => cases hset.eq_of_assigns hc hmem (congrArg some hx) rfl
    | copy hc hx hset hs =>
        cases hset.eq_of_assigns hc hmem (congrArg some hx) rfl
        exact (h _ _ (Env.get_ok (ok_of_mapError_ok hv))).noEntry hs
  · intro name source hn hs
    cases hn with
    | openFile _ hc hx hset _ => cases hset.eq_of_assigns hc hmem (congrArg some hx) rfl
    | copy hc hx hset hsrc =>
        cases hset.eq_of_assigns hc hmem (congrArg some hx) rfl
        exact (h _ _ (Env.get_ok (ok_of_mapError_ok hv))).file name source hsrc hs

theorem array_of_stored {target value : Var} {index : Literal}
    (hv : Exec.storedValue env target index value = .ok v) :
    ∃ a data, env[target.name]? = some (.array a) ∧ v = .array { a with data } := by
  unfold Exec.storedValue at hv
  obtain ⟨source, -, h₁⟩ := exists_of_bind_ok hv
  obtain ⟨old, hold, h₂⟩ := exists_of_bind_ok h₁
  unfold Value.stored at h₂
  split at h₂
  · split at h₂
    · split at h₂
      · cases h₂
        exact ⟨_, _, Env.get_ok hold, rfl⟩
      · cases h₂
    · cases h₂
  · cases h₂

/-! ### Calls -/

/-- The last assignment to the name in the row allocates an array of this type. -/
def Allocates (row : List Stmt) (x : String) (type : ArrayType) : Prop :=
  ∃ front t vars rest, row = front ++ .assign t (.alloc vars type.elem) :: rest ∧ t.name = x ∧
    vars.length = type.rank ∧ ∀ u ∈ rest, ¬ u.Assigns x

/-- A call that can only open sources that are there, ask for extents, write, or
read a dataset of the catalog into an array of its type, which the row in front
of the call has allocated. -/
inductive SourceCall (C : Catalog) (e : Function) (row : List Stmt) : Stmt → Prop
  /-- Nothing that can be called is ever in the callee. -/
  | stuck {t callee : Var} {args : List Var} {kws : List (String × Var)}
      (h : HoldsNoEntry e callee.name) : SourceCall C e row (.call t callee args kws)
  | openFile {t callee name mode parallel : Var} (hload : HoldsEntry e callee.name .openFile)
      (hmode : HoldsText e mode.name "r") :
      SourceCall C e row (.call t callee [name, mode, parallel] [])
  | size {t callee : Var} {args : List Var} {kws : List (String × Var)}
      (hload : HoldsEntry e callee.name .size) : SourceCall C e row (.call t callee args kws)
  | write {t callee : Var} {args : List Var} {kws : List (String × Var)}
      (hload : HoldsEntry e callee.name .write) : SourceCall C e row (.call t callee args kws)
  | read {t callee file dataset rank start count stride buffer name : Var}
      {source path : String} {type : ArrayType} (hload : HoldsEntry e callee.name .read)
      (hfile : HoldsFile e file.name name) (hsource : HoldsText e name.name source)
      (hpath : HoldsText e dataset.name path) (htype : C.inspect source path = .ok type)
      (hbuffer : Allocates row buffer.name type) :
      SourceCall C e row (.call t callee [file, dataset, rank, start, count, stride, buffer] [])

variable {C : Catalog} {row : List Stmt} {callee target : Var} {args : List Var}
  {kws : List (String × Var)} {p : Prepared}

theorem FitsAll.request_entry (h : FitsAll e s env) (hp : env.request callee args kws = .ok p)
    {q : EntryPoint} (hload : HoldsEntry e callee.name q) : p.request.entry = q := by
  obtain ⟨values, hcallee, -, -⟩ := Env.request_ok hp
  have hentry := (h _ _ hcallee).entry q hload
  cases hentry
  rfl

theorem FitsAll.request_openFile {name mode parallel : Var} (h : FitsAll e s env)
    (hp : env.request callee [name, mode, parallel] kws = .ok p)
    (hload : HoldsEntry e callee.name .openFile) (hmode : HoldsText e mode.name "r") :
    ∃ source n, env[name.name]? = some (.str source) ∧
      p = { request := .openFile source "r" n } := by
  have hentry := h.request_entry hp hload
  obtain ⟨values, -, hvalues, hprepares⟩ := Env.request_ok hp
  obtain ⟨v₁, vs₁, hv₁, hvs₁, rfl⟩ := Env.mapM_get_cons_ok hvalues
  obtain ⟨v₂, vs₂, hv₂, hvs₂, rfl⟩ := Env.mapM_get_cons_ok hvs₁
  rw [hentry] at hprepares
  cases hprepares with
  | openFile source text n parallel =>
      cases (h _ _ hv₂).text "r" hmode
      exact ⟨source, n, hv₁, rfl⟩

/-- A name without an entry point asks for nothing. -/
theorem FitsAll.request_ne_ok (h : FitsAll e s env) (hcallee : HoldsNoEntry e callee.name) :
    env.request callee args kws ≠ .ok p := by
  intro hp
  obtain ⟨values, hentry, -, -⟩ := Env.request_ok hp
  exact (h _ _ hentry).noEntry hcallee _ rfl

theorem SourceCall.keepsCatalog (hc : SourceCall C e row (.call target callee args kws))
    (h : FitsAll e s env) (hp : env.request callee args kws = .ok p) :
    p.request.KeepsCatalog := by
  cases hc with
  | stuck hcallee => exact absurd hp (h.request_ne_ok hcallee)
  | openFile hload hmode =>
      obtain ⟨source, n, -, rfl⟩ := h.request_openFile hp hload hmode
      exact rfl
  | size hload =>
      have hentry := h.request_entry hp hload
      cases hq : p.request <;> rw [hq] at hentry <;> cases hentry
      trivial
  | write hload =>
      have hentry := h.request_entry hp hload
      cases hq : p.request <;> rw [hq] at hentry <;> cases hentry
      trivial
  | read hload _ _ _ _ _ =>
      have hentry := h.request_entry hp hload
      cases hq : p.request <;> rw [hq] at hentry <;> cases hentry
      trivial

theorem getLast?_of_mapM_get {vars : List Var} {values : List Value}
    (h : vars.mapM env.get = .ok values) :
    (vars.getLast?.bind fun w => env[w.name]?) = values.getLast? := by
  induction vars generalizing values with
  | nil =>
      cases h
      rfl
  | cons w vars ih =>
      obtain ⟨v, vs, hv, hvs, rfl⟩ := Env.mapM_get_cons_ok h
      cases vars with
      | nil =>
          cases hvs
          exact hv
      | cons w' vars =>
          have hlast := ih hvs
          obtain ⟨v', vs', -, -, rfl⟩ := Env.mapM_get_cons_ok hvs
          rw [List.getLast?_cons_cons, List.getLast?_cons_cons]
          exact hlast

theorem dest_ok {x : String} {a : ArrayValue} (hp : env.request callee args kws = .ok p)
    (hd : p.dest = some (x, a)) : env[x]? = some (.array a) := by
  obtain ⟨values, -, hvalues, hprepares⟩ := Env.request_ok hp
  generalize p.request.entry = e at hprepares
  cases hprepares with
  | read t rank start count stride b =>
      have hlast := getLast?_of_mapM_get hvalues
      obtain ⟨w, hw, heq⟩ := Option.map_eq_some_iff.mp hd
      cases heq
      rw [hw] at hlast
      exact hlast
  | _ => cases hd

/-- What a call returns is something that its name can hold. -/
theorem fits_of_result (hmem : .call target callee args kws ∈ e.stmts)
    {reply : Reply} (hp : env.request callee args kws = .ok p)
    (ha : Store.device.answer p.request s = (.ok reply, t))
    (hstatus : checkStatus p.request.entry.name reply.status = .ok ()) (h : FitsAll e s env) :
    Fits e t target.name (p.request.entry.result reply.status) := by
  constructor
  · intro text ht
    cases ht with
    | const hc hx hset => cases hset.eq_of_assigns hc hmem (congrArg some hx) rfl
    | copy hc hx hset _ => cases hset.eq_of_assigns hc hmem (congrArg some hx) rfl
  · rintro q ⟨⟨u, base, hu, hx⟩, hset⟩
    cases hset.eq_of_assigns hu hmem (congrArg some hx) rfl
  · exact fun _ => EntryPoint.result_ne_entry _ _
  · intro name source hn hs
    cases hn with
    | copy hc hx hset _ => cases hset.eq_of_assigns hc hmem (congrArg some hx) rfl
    | openFile hload hc hx hset hmode =>
        cases hset.eq_of_assigns hc hmem (congrArg some hx) rfl
        obtain ⟨source', n, hname, rfl⟩ := h.request_openFile hp hload hmode
        cases (h _ _ hname).text source hs
        exact ⟨reply.status, rfl, Store.handles_answer ha (nonneg_of_checkStatus hstatus)⟩

end

/-! ### Buffers -/

section

variable {σ : Type} {d : Device σ} {m n : Machine σ} {x : String} {type : ArrayType}

def Env.HoldsArray (env : Env) (x : String) (type : ArrayType) : Prop :=
  ∃ a, env[x]? = some (.array a) ∧ a.elem = type.elem ∧ a.shape.length = type.rank

theorem Env.exists_data_insert {env : Env} {a b : ArrayValue} {y : String}
    (ha : env[x]? = some (.array a)) (hb : env[y]? = some (.array b)) (data : Array Float) :
    ∃ data', (env.insert y (.array { b with data }))[x]? =
      some (.array { a with data := data' }) := by
  by_cases hy : y = x
  · subst hy
    cases Option.some.inj (ha.symm.trans hb)
    exact ⟨data, Env.getElem?_insert_self ..⟩
  · exact ⟨a.data, (Env.getElem?_insert_of_ne env hy _).trans ha⟩

theorem Exec.Runs.exists_data {u : Stmt} {a : ArrayValue} (hrun : Exec.Runs d m u n)
    (ha : m.env[x]? = some (.array a)) (hu : ¬ u.Assigns x) :
    ∃ data, n.env[x]? = some (.array { a with data }) := by
  cases hrun with
  | assign t hv =>
      have hne : t.name ≠ x := fun hx => hu (congrArg some hx)
      exact ⟨a.data, (Env.getElem?_insert_of_ne _ hne _).trans ha⟩
  | store t hv =>
      obtain ⟨b, data, hb, rfl⟩ := array_of_stored hv
      exact Env.exists_data_insert ha hb data
  | @call t callee args kws p reply s hp hanswer hs =>
      have hne : t.name ≠ x := fun hx => hu (congrArg some hx)
      have hafter : ∃ data, (Exec.afterCall m.env p reply)[x]? = some (.array { a with data }) := by
        unfold Exec.afterCall
        split
        · rename_i y b hd
          exact Env.exists_data_insert ha (dest_ok hp hd) reply.buffer
        · exact ⟨a.data, ha⟩
      obtain ⟨data, hdata⟩ := hafter
      exact ⟨data, (Env.getElem?_insert_of_ne _ hne _).trans hdata⟩

theorem holdsArray_of_alloc {t : Var} {vars : List Var}
    (h : Exec.Runs d m (.assign t (.alloc vars type.elem)) n) (hrank : vars.length = type.rank) :
    n.env.HoldsArray t.name type := by
  cases h with
  | assign t hv =>
      obtain ⟨dims, hdims, h₁⟩ := exists_of_bind_ok hv
      obtain ⟨a, ha, h₂⟩ := exists_of_bind_ok h₁
      cases h₂
      obtain ⟨k, -, h₃⟩ := exists_of_bind_ok (ok_of_mapError_ok ha)
      obtain ⟨u, -, h₄⟩ := exists_of_bind_ok h₃
      cases h₄
      refine ⟨_, by rw [Env.getElem?_insert, if_pos rfl], rfl, ?_⟩
      exact (length_of_mapM_ok (ok_of_mapError_ok hdims)).trans hrank

theorem Env.HoldsArray.runs {u : Stmt} (h : m.env.HoldsArray x type) (hu : ¬ u.Assigns x)
    (hrun : Exec.Runs d m u n) : n.env.HoldsArray x type := by
  obtain ⟨a, ha, htype⟩ := h
  obtain ⟨data, hdata⟩ := hrun.exists_data ha hu
  exact ⟨{ a with data }, hdata, htype⟩

theorem Env.HoldsArray.body {ss : List Stmt} (h : m.env.HoldsArray x type)
    (hss : ∀ u ∈ ss, ¬ u.Assigns x) (hrun : Exec.body d ss m = .ok () n) :
    n.env.HoldsArray x type := by
  induction ss generalizing m with
  | nil =>
      cases hrun
      exact h
  | cons u ss ih =>
      obtain ⟨k, hu, hrest⟩ := Exec.body_cons_ok hrun
      exact ih (h.runs (hss u (List.mem_cons_self ..)) (Exec.runs_of_stmt hu))
        (fun w hw => hss w (List.mem_cons_of_mem _ hw)) hrest

theorem Allocates.holdsArray {row : List Stmt} (h : Allocates row x type)
    (hrun : Exec.body d row m = .ok () n) : n.env.HoldsArray x type := by
  obtain ⟨front, t, vars, rest, rfl, rfl, hrank, hrest⟩ := h
  obtain ⟨k, -, hrun₁⟩ := Exec.body_append_ok hrun
  obtain ⟨k', halloc, hrun₂⟩ := Exec.body_cons_ok hrun₁
  exact (holdsArray_of_alloc (Exec.runs_of_stmt halloc) hrank).body hrest hrun₂

end

/-! ### What statements leave alone -/

/-- The variable is left as it was, or an array takes the place of an array. -/
def Env.Lasts (e e' : Env) (x : String) : Prop :=
  e'[x]? = e[x]? ∨ ∃ a b, e[x]? = some (.array a) ∧ e'[x]? = some (.array b)

theorem Env.Lasts.eq {e e' : Env} {x : String} {v : Value} (h : Env.Lasts e e' x)
    (hv : e[x]? = some v) (hne : ∀ a, v ≠ .array a) : e'[x]? = some v := by
  rcases h with h | ⟨a, b, ha, -⟩
  · exact h.trans hv
  · exact absurd (Option.some.inj (hv.symm.trans ha)) (hne a)

namespace Env.Lasts

variable {e e' e'' : Env} {x : String}

theorem refl (e : Env) (x : String) : Env.Lasts e e x := Or.inl rfl

theorem trans (h : Env.Lasts e e' x) (h' : Env.Lasts e' e'' x) : Env.Lasts e e'' x := by
  rcases h with h | ⟨a, b, ha, hb⟩
  · rcases h' with h' | ⟨a', b', ha', hb'⟩
    · exact Or.inl (h'.trans h)
    · exact Or.inr ⟨a', b', h ▸ ha', hb'⟩
  · rcases h' with h' | ⟨a', b', -, hb'⟩
    · exact Or.inr ⟨a, b, ha, h'.trans hb⟩
    · exact Or.inr ⟨a, b', ha, hb'⟩

end Env.Lasts

theorem Exec.Runs.lasts {σ : Type} {d : Device σ} {m n : Machine σ} {s : Stmt}
    (h : Exec.Runs d m s n) {x : String} (hx : ¬ s.Assigns x) : Env.Lasts m.env n.env x := by
  cases h with
  | assign t hv =>
      exact Or.inl (Env.getElem?_insert_of_ne _ (fun heq => hx (congrArg some heq)) _)
  | @call t callee args kws p reply _ hp ha hs =>
      have hother := Env.getElem?_insert_of_ne (Exec.afterCall m.env p reply)
        (fun heq => hx (congrArg some heq)) (p.request.entry.result reply.status)
      rw [Env.Lasts, hother, Exec.afterCall]
      cases hd : p.dest with
      | none => exact Or.inl rfl
      | some dest =>
          obtain ⟨y, a⟩ := dest
          by_cases hy : y = x
          · subst hy
            exact Or.inr ⟨a, _, dest_ok hp hd, Env.getElem?_insert_self ..⟩
          · exact Or.inl (Env.getElem?_insert_of_ne _ hy _)
  | store t hv =>
      obtain ⟨a, data, ha, rfl⟩ := array_of_stored hv
      by_cases ht : t.name = x
      · subst ht
        exact Or.inr ⟨a, _, ha, Env.getElem?_insert_self ..⟩
      · exact Or.inl (Env.getElem?_insert_of_ne _ ht _)

theorem Exec.lasts_of_body {σ : Type} {d : Device σ} {ss : List Stmt} {m n : Machine σ}
    (h : Exec.body d ss m = .ok () n) {x : String} (hx : x ∉ definedNames ss) :
    Env.Lasts m.env n.env x := by
  induction ss generalizing m with
  | nil =>
      cases h
      exact .refl _ _
  | cons u ss ih =>
      obtain ⟨k, hu, hrest⟩ := Exec.body_cons_ok h
      have hux : ¬ u.Assigns x := fun hux => hx (mem_definedNames (List.mem_cons_self ..) hux)
      have hrestx : x ∉ definedNames ss := fun hmem => by
        obtain ⟨s, hs, hsx⟩ := exists_of_mem_definedNames hmem
        exact hx (mem_definedNames (List.mem_cons_of_mem _ hs) hsx)
      exact ((Exec.runs_of_stmt hu).lasts hux).trans (ih hrest hrestx)

/-- What an assignment leaves, unless it is an array, stays until the name is assigned
again. -/
theorem Exec.holds_of_body {σ : Type} {d : Device σ} {front rest : List Stmt} {t : Var}
    {value : Expr} {v : Value} {m n : Machine σ}
    (h : Exec.body d (front ++ .assign t value :: rest) m = .ok () n)
    (hv : ∀ env w, value.eval env = .ok w → w = v) (hne : ∀ a, v ≠ .array a)
    (hrest : t.name ∉ definedNames rest) : n.env[t.name]? = some v := by
  obtain ⟨k, -, h₁⟩ := Exec.body_append_ok h
  obtain ⟨k', hassign, h₂⟩ := Exec.body_cons_ok h₁
  refine (Exec.lasts_of_body h₂ hrest).eq ?_ hne
  cases Exec.runs_of_stmt hassign with
  | assign t hw => rw [Env.getElem?_insert_self, hv _ _ hw]

theorem Exec.isSome_of_runs {σ : Type} {d : Device σ} {m n : Machine σ} {s : Stmt}
    (h : Exec.Runs d m s n) {x : String} (hx : m.env[x]?.isSome ∨ s.Assigns x) :
    n.env[x]?.isSome := by
  by_cases hs : s.Assigns x
  · cases h with
    | assign t hv =>
        cases hs
        rw [Env.getElem?_insert_self]
        rfl
    | call t hp ha hstatus =>
        cases hs
        rw [Env.getElem?_insert_self]
        rfl
    | store t hv => cases hs
  · rcases h.lasts hs with heq | ⟨a, b, -, hb⟩
    · rw [heq]
      exact hx.resolve_right hs
    · rw [hb]
      rfl

theorem Exec.isSome_of_body {σ : Type} {d : Device σ} {ss : List Stmt} {m n : Machine σ}
    (h : Exec.body d ss m = .ok () n) {x : String}
    (hx : m.env[x]?.isSome ∨ x ∈ definedNames ss) : n.env[x]?.isSome := by
  induction ss generalizing m with
  | nil =>
      cases h
      exact hx.resolve_right List.not_mem_nil
  | cons u ss ih =>
      obtain ⟨k, hu, hrest⟩ := Exec.body_cons_ok h
      by_cases hss : x ∈ definedNames ss
      · exact ih hrest (Or.inr hss)
      · refine ih hrest (Or.inl (Exec.isSome_of_runs (Exec.runs_of_stmt hu) (hx.imp_right ?_)))
        rw [definedNames_cons]
        exact fun hmem => Option.mem_toList.mp ((List.mem_append.mp hmem).resolve_right hss)

/-! ### Runs -/

/-- What holds all along a run on a store with the datasets of a catalog. -/
structure Knows (e : Function) (C : Catalog) (m : Machine Store) : Prop where
  fits : FitsAll e m.device m.env
  catalog : ∀ source path, m.device.catalog.get? source path = C.get? source path
  below : m.device.HandlesBelow

section

variable {e : Function} {C : Catalog} {m n : Machine Store}

theorem Knows.runs
    (hcalls : ∀ t callee args kws, .call t callee args kws ∈ e.stmts →
      ∃ row, SourceCall C e row (.call t callee args kws))
    {u : Stmt} (hu : u ∈ e.stmts) (h : Knows e C m) (hrun : Exec.Runs Store.device m u n) :
    Knows e C n := by
  cases hrun with
  | assign t hv => exact ⟨h.fits.insert (fits_of_eval hu hv h.fits), h.catalog, h.below⟩
  | store t hv =>
      obtain ⟨a, data, ha, rfl⟩ := array_of_stored hv
      exact ⟨h.fits.insert ((h.fits _ _ ha).of_array _), h.catalog, h.below⟩
  | @call t callee args kws p reply s hp ha hs =>
      obtain ⟨row, hcall⟩ := hcalls _ _ _ _ hu
      have hext : m.device.Extends s :=
        Store.extends_answer h.below (hcall.keepsCatalog h.fits hp) ha
      have hafter : FitsAll e s (Exec.afterCall m.env p reply) := by
        unfold Exec.afterCall
        split
        · rename_i x a hd
          have hold := (h.fits _ _ (dest_ok hp hd)).extends hext
          exact (h.fits.extends hext).insert (hold.of_array _)
        · exact h.fits.extends hext
      refine ⟨hafter.insert (fits_of_result hu hp ha hs h.fits), ?_, hext.below⟩
      intro source path
      rw [hext.catalog, h.catalog]

theorem mem_params_of_ofArgs {params : List String} {args : List Value} {x : String} {v : Value}
    (h : (Env.ofArgs params args)[x]? = some v) : x ∈ params := by
  have hfold : ∀ (zs : List (String × Value)) (env : Env),
      (zs.foldl (fun env p => env.insert p.1 p.2) env)[x]? = some v →
        x ∈ zs.map Prod.fst ∨ env[x]? = some v := by
    intro zs
    induction zs with
    | nil => exact fun env => Or.inr
    | cons z zs ih =>
        intro env henv
        rcases ih _ henv with hmem | hold
        · exact Or.inl (List.mem_cons_of_mem _ hmem)
        · rw [Env.getElem?_insert] at hold
          split at hold
          · rename_i hz
            exact Or.inl (hz ▸ List.mem_cons_self ..)
          · exact Or.inr hold
  rcases hfold _ _ h with hmem | hempty
  · obtain ⟨p, hp, rfl⟩ := List.mem_map.mp hmem
    exact (List.of_mem_zip hp).1
  · simp at hempty

theorem knows_begin {f : Function} {args : List Value} (hparams : f.params = e.params) :
    Knows e C (f.begin args (Store.ofCatalog C)) where
  fits _ v hv := fits_of_param (hparams ▸ mem_params_of_ofArgs hv) _ v
  catalog _ _ := rfl
  below := Store.handlesBelow_ofCatalog C

theorem Catalog.inspect_ok {source path : String} {type : ArrayType}
    (h : C.inspect source path = .ok type) :
    ∃ info, C.get? source path = some info ∧ type = info.arrayType := by
  unfold Catalog.inspect at h
  split at h
  · cases h
  · rename_i hsource
    split at h
    · cases h
    · rename_i info hpath
      cases h
      exact ⟨info, by simp [BySource.get?, hsource, hpath], rfl⟩

/-- The read goes to a dataset of the catalog, and its buffer has the element type
and the rank of this dataset. -/
def Prepared.Matches (p : Prepared) (C : Catalog) (s : Store) (file : Int) (path : String) :
    Prop :=
  ∃ x a source info, p.dest = some (x, a) ∧
    s.dataset? file path = some (source, path, info) ∧ C.get? source path = some info ∧
    a.elem = info.elem ∧ a.shape.length = info.shape.length

theorem Knows.read {row : List Stmt} {t callee : Var} {args : List Var}
    {kws : List (String × Var)} {p : Prepared}
    (h : Knows e C m) (hc : SourceCall C e row (.call t callee args kws))
    (hrow : ∀ v ∈ args, ∀ type, Allocates row v.name type → m.env.HoldsArray v.name type)
    (hp : m.env.request callee args kws = .ok p) {file : Int} {path : String}
    {start count : List Int} {stride : Int} {data : Array Float}
    (hread : p.request = .read file path start count stride data) :
    p.Matches C m.device file path := by
  have hentry : p.request.entry = .read := by rw [hread]; rfl
  cases hc with
  | stuck hcallee => exact absurd hp (h.fits.request_ne_ok hcallee)
  | openFile hload hmode => cases hentry.symm.trans (h.fits.request_entry hp hload)
  | size hload => cases hentry.symm.trans (h.fits.request_entry hp hload)
  | write hload => cases hentry.symm.trans (h.fits.request_entry hp hload)
  | @read t callee fileVar dataset rank start' count' stride' buffer name source path'
      type hload hfile hsource hpath htype hbuffer =>
      obtain ⟨values, -, hvalues, hprepares⟩ := Env.request_ok hp
      obtain ⟨v₁, vs₁, hv₁, hvs₁, rfl⟩ := Env.mapM_get_cons_ok hvalues
      obtain ⟨v₂, vs₂, hv₂, -, rfl⟩ := Env.mapM_get_cons_ok hvs₁
      rw [hentry] at hprepares
      cases hprepares with
      | read t rank start count stride a =>
          cases hread
          obtain ⟨n, hn, hhandle⟩ := (h.fits _ _ hv₁).file name source hfile hsource
          cases hn
          cases (h.fits _ _ hv₂).text path' hpath
          obtain ⟨info, hinfo, rfl⟩ := Catalog.inspect_ok htype
          obtain ⟨b, hb, helem, hshape⟩ := hrow buffer (by simp) _ hbuffer
          have hdest := dest_ok hp (x := buffer.name) (a := a) rfl
          rw [hb] at hdest
          cases hdest
          refine ⟨buffer.name, a, source, info, rfl, ?_, hinfo, helem, hshape⟩
          have hlocate : m.device.locate? t.file t.dataset = some (source, t.dataset) := by
            simp [Store.locate?, hhandle]
          simp [Store.dataset?, hlocate, h.catalog, hinfo]

end

end SpmdArrays
