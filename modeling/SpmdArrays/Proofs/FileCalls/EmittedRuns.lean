import Mathlib.Data.List.Forall2
import SpmdArrays.Proofs.Exec.Services
import SpmdArrays.Proofs.FileCalls.FreshNames

/-!
What the statements that stand for a file call do when they run, on any device. The
statements of one call only assign the temporaries that they take and their own target,
so what the call was given is still there when it is used, however many statements stand
in between.
-/

namespace SpmdArrays

def Value.ints (ns : List Int) : List Value := ns.map .int

namespace Device

variable {σ : Type}

def extent (d : Device σ) (file name : Value) (dim : Nat) : Service σ Nat := do
  return (← d.invoke .size [file, name, .int dim]).status.toNat

def origin (rank : Nat) : Value := .tuple (List.replicate rank (.int 0))

/-- Reads a whole dataset into a new array of its extents. -/
def readWhole (d : Device σ) (file name : Value) (type : ArrayType) : Service σ ArrayValue := do
  let shape ← (List.range type.rank).mapM (d.extent file name)
  let a ← Service.ofExcept ((ArrayValue.zeros type.elem shape).mapError .fault)
  let reply ← d.invoke .read [file, name, .int type.rank, origin type.rank,
    .tuple (Value.ints (shape.map Int.ofNat)), .int 0, .array a]
  return { a with data := reply.buffer }

/-- Writes a whole array to the front of a dataset. -/
def writeWhole (d : Device σ) (file name : Value) (rank : Nat) (source : Value) :
    Service σ Reply := do
  let counts ← Service.ofExcept ((source.attr "shape").mapError .failed)
  d.invoke .write [file, name, .int rank, origin rank, counts, .int 0, source]

end Device

@[simp] theorem Var.tempName_eq_iff {stem stem' : String} {n n' : Nat} :
    Var.tempName stem n = Var.tempName stem' n' ↔ stem = stem' ∧ n = n' := by
  constructor
  · exact Var.tempName_inj
  · rintro ⟨rfl, rfl⟩
    rfl

theorem not_generatedFrom_tempName {stem : String} {k n : Nat} (h : k < n) :
    ¬ GeneratedFrom n (Var.tempName stem k) := by
  rintro ⟨stem', k', hle, heq⟩
  have := (Var.tempName_inj heq).2
  omega

theorem tempName_ne {n k : Nat} {x : String} (hx : ¬ GeneratedFrom n x) (h : n ≤ k)
    (stem : String) : Var.tempName stem k ≠ x :=
  fun heq => hx ⟨stem, k, h, heq.symm⟩

namespace Env

/-- Nothing changed but temporaries from some number on. -/
def Keeps (n : Nat) (e e' : Env) : Prop := Agree (fun x => ¬ GeneratedFrom n x) e e'

variable {n k : Nat} {e e' e'' : Env}

theorem Keeps.refl (n : Nat) (e : Env) : Keeps n e e := fun _ _ => rfl

theorem Keeps.trans (h : Keeps n e e') (h' : Keeps n e' e'') : Keeps n e e'' :=
  fun x hx => (h x hx).trans (h' x hx)

theorem Keeps.mono (h : Keeps k e e') (hle : n ≤ k) : Keeps n e e' :=
  fun x hx => h x fun hk => hx (hk.mono hle)

theorem Keeps.insert (h : Keeps n e e') (hle : n ≤ k) (stem : String) (v : Value) :
    Keeps n e (e'.insert (Var.tempName stem k) v) :=
  Agree.insert_right h (fun hx => hx ⟨stem, k, hle, rfl⟩) v

theorem mapM_get_of_forall₂ {vars : List Var} {values : List Value}
    (h : List.Forall₂ (fun (v : Var) w => e[v.name]? = some w) vars values) :
    vars.mapM e.get = .ok values := by
  induction h with
  | nil => rfl
  | cons hv _ ih =>
      rw [List.mapM_cons, Env.get, hv, ih]
      rfl

theorem mapM_get_replicate {v : Var} {w : Value} (h : e[v.name]? = some w) (rank : Nat) :
    (List.replicate rank v).mapM e.get = .ok (List.replicate rank w) := by
  apply mapM_get_of_forall₂
  induction rank with
  | zero => exact .nil
  | succ rank ih => exact .cons h ih

end Env

namespace Expand

open Exec

variable {σ : Type} {dev : Device σ} {m : Machine σ} {c : FileScope} {d : DatasetRef} {n : Nat}

theorem performs_loadCode (e : EntryPoint) (loc : Loc) :
    Performs dev (loadCode c e loc n) m (pure ()) fun _ env =>
      Env.Keeps n m.env env ∧ env[(entryVar c e loc n).name]? = some (.entry e) := by
  apply Performs.append_silent (l := [_]) (performs_assign_ok rfl)
  intro m₁ h₁
  have hattr : Expr.eval m₁.env (.attr (temp c "io_abi" loc n) e.name) = .ok (.entry e) := by
    have hget : m₁.env.get (temp c "io_abi" loc n) = .ok (.module .ioAbi) := by
      rw [Env.get, h₁, Env.getElem?_insert_self]
    have hentry : (Value.module .ioAbi).attr e.name = .ok (.entry e) := by simp [Value.attr]
    rw [Expr.eval, hget]
    change ((Value.module .ioAbi).attr e.name).mapError Stop.failed = _
    rw [hentry]
    rfl
  refine (performs_assign_ok hattr).mono fun _ env henv => ⟨?_, ?_⟩
  · rw [henv, h₁]
    exact ((Env.Keeps.refl n m.env).insert (Nat.le_refl n) _ _).insert (Nat.le_succ n) _ _
  · rw [henv, Env.getElem?_insert_self]

theorem performs_callCode {e : EntryPoint} {args : List Var} {target : Var} {values : List Value}
    (hargs : args.mapM m.env.get = .ok values) (hgen : ∀ v ∈ args, ¬ GeneratedFrom n v.name)
    (hlen : args.length = e.arity) :
    Performs dev (callCode c e args target n) m (dev.invoke e values) fun reply env =>
      ∃ env₁ p, Env.Keeps n m.env env₁ ∧ prepare e args values = .ok p ∧
        env = (afterCall env₁ p reply).insert target.name (e.result reply.status) := by
  apply (performs_loadCode e target.loc).append_silent
  rintro m₁ ⟨hkeeps, hentry⟩
  have hargs' : args.mapM m₁.env.get = .ok values := by
    rw [← hargs]
    exact (hkeeps.mapM_get hgen).symm
  refine (performs_call hentry hlen hargs').mono ?_
  rintro reply env ⟨-, p, hp, henv⟩
  exact ⟨m₁.env, p, hkeeps, hp, henv⟩

/-- Only a read leaves more than its result. -/
theorem performs_callCode_of_ne_read {e : EntryPoint} (he : e ≠ .read) {args : List Var}
    {target : Var} {values : List Value} (hargs : args.mapM m.env.get = .ok values)
    (hgen : ∀ v ∈ args, ¬ GeneratedFrom n v.name) (hlen : args.length = e.arity) :
    Performs dev (callCode c e args target n) m (dev.invoke e values) fun reply env =>
      Env.Keeps n (m.env.insert target.name (e.result reply.status)) env := by
  refine (performs_callCode hargs hgen hlen).mono ?_
  rintro reply env ⟨env₁, p, hkeeps, hp, rfl⟩
  have hafter : afterCall env₁ p reply = env₁ := by
    cases prepares_of_prepare hp <;> first | rfl | exact absurd rfl he
  rw [hafter]
  exact Env.Agree.insert hkeeps _ _

theorem performs_const_cons {lit : Literal} {stem : String} {loc : Loc} {ss : List Stmt}
    {target : Var} {α : Type} {x : Service σ α} {result : α → Value}
    (h : ∀ m₁ : Machine σ, Env.Keeps n m.env m₁.env →
      m₁.env[Var.tempName stem n]? = some (.ofLiteral lit) →
      Performs dev ss m₁ x fun a env =>
        Env.Keeps (n + 1) (m₁.env.insert target.name (result a)) env) :
    Performs dev (.assign (temp c stem loc n) (.const lit) :: ss) m x fun a env =>
      Env.Keeps n (m.env.insert target.name (result a)) env := by
  apply Performs.append_silent (l := [_]) (performs_assign_ok rfl)
  intro m₁ h₁
  have hkeeps : Env.Keeps n m.env m₁.env := by
    rw [h₁]
    exact (Env.Keeps.refl n m.env).insert (Nat.le_refl n) _ _
  have hconst : m₁.env[Var.tempName stem n]? = some (.ofLiteral lit) := by
    rw [h₁]
    exact Env.getElem?_insert_self ..
  refine (h m₁ hkeeps hconst).mono fun a env henv => ?_
  exact Env.Keeps.trans (Env.Agree.insert hkeeps _ _) (henv.mono (Nat.le_succ n))

/-- The mode in which a file is opened: reading, if no variable is there for it. -/
def openMode (env : Env) : Option Var → Option Value
  | some v => env[v.name]?
  | none => some (.str "r")

theorem performs_openCode {target name : Var} {mode : Option Var} {nameValue modeValue : Value}
    (hname : m.env[name.name]? = some nameValue)
    (hmode : openMode m.env mode = some modeValue)
    (gname : ¬ GeneratedFrom n name.name)
    (gmode : ∀ v, mode = some v → ¬ GeneratedFrom n v.name) :
    Performs dev (openCode c target name n mode) m
      (dev.invoke .openFile [nameValue, modeValue, .int 0]) fun reply env =>
        Env.Keeps n (m.env.insert target.name (.handle reply.status)) env := by
  have hlater : ∀ x k, n ≤ k → ¬ GeneratedFrom n x → ¬ GeneratedFrom k x :=
    fun x k hk hx h => hx (h.mono hk)
  cases mode with
  | some mode =>
      have gmode := gmode mode rfl
      refine performs_const_cons fun m₁ hkeeps hflag => ?_
      refine performs_callCode_of_ne_read (e := .openFile) nofun ?_ ?_ rfl
      · exact Env.mapM_get_of_forall₂ (.cons ((hkeeps _ gname).symm.trans hname)
          (.cons ((hkeeps _ gmode).symm.trans hmode) (.cons hflag .nil)))
      · simp only [List.forall_mem_cons, temp_name]
        exact ⟨hlater _ _ (by omega) gname, hlater _ _ (by omega) gmode,
          not_generatedFrom_tempName (by omega), by simp⟩
  | none =>
      cases hmode
      refine performs_const_cons fun m₁ hkeeps hread => ?_
      refine performs_const_cons fun m₂ hkeeps' hflag => ?_
      refine performs_callCode_of_ne_read (e := .openFile) nofun ?_ ?_ rfl
      · refine Env.mapM_get_of_forall₂ (.cons ?_ (.cons ?_ (.cons hflag .nil)))
        · rw [← hkeeps' _ (hlater _ _ (by omega) gname), ← hkeeps _ gname, hname]
        · exact (hkeeps' _ (not_generatedFrom_tempName (by omega))).symm.trans hread
      · simp only [List.forall_mem_cons, temp_name]
        exact ⟨hlater _ _ (by omega) gname, not_generatedFrom_tempName (by omega),
          not_generatedFrom_tempName (by omega), by simp⟩

theorem performs_createDatasetCode {target file name shape elem : Var} {rank : Nat}
    {fileValue nameValue shapeValue elemValue : Value}
    (hfile : m.env[file.name]? = some fileValue) (hname : m.env[name.name]? = some nameValue)
    (hshape : m.env[shape.name]? = some shapeValue) (helem : m.env[elem.name]? = some elemValue)
    (gargs : ∀ v ∈ [file, name, shape, elem], ¬ GeneratedFrom n v.name) :
    Performs dev (createDatasetCode c target file name shape elem rank n) m
      (dev.invoke .createDataset [fileValue, nameValue, .int rank, shapeValue, elemValue])
      fun reply env => Env.Keeps n (m.env.insert target.name (.handle reply.status)) env := by
  have hlater : ∀ x, ¬ GeneratedFrom n x → ¬ GeneratedFrom (n + 1) x :=
    fun x hx h => hx (h.mono (Nat.le_succ n))
  simp only [List.forall_mem_cons] at gargs
  obtain ⟨gfile, gname, gshape, gelem, -⟩ := gargs
  refine performs_const_cons fun m₁ hkeeps hrank => ?_
  refine performs_callCode_of_ne_read (e := .createDataset) nofun ?_ ?_ rfl
  · exact Env.mapM_get_of_forall₂ (.cons ((hkeeps _ gfile).symm.trans hfile)
      (.cons ((hkeeps _ gname).symm.trans hname) (.cons hrank
        (.cons ((hkeeps _ gshape).symm.trans hshape)
          (.cons ((hkeeps _ gelem).symm.trans helem) .nil)))))
  · simp only [List.forall_mem_cons, temp_name]
    exact ⟨hlater _ gfile, hlater _ gname, not_generatedFrom_tempName (by omega),
      hlater _ gshape, hlater _ gelem, by simp⟩

/-! ### Transfers -/

structure SlabVars (env : Env) (rank n : Nat) : Prop where
  ndims : env[Var.tempName "h5_ndims" n]? = some (.int rank)
  zero : env[Var.tempName "const_zero" (n + 1)]? = some (.int 0)
  starts : env[Var.tempName "h5_starts" (n + 2)]? = some (Device.origin rank)

theorem performs_slabVars (rank : Nat) (loc : Loc) :
    Performs dev
      [intConst (temp c "h5_ndims" loc n) rank, intConst (temp c "const_zero" loc (n + 1)) 0,
        .assign (temp c "h5_starts" loc (n + 2))
          (.tuple (List.replicate rank (temp c "const_zero" loc (n + 1))))]
      m (pure ()) fun _ env => Env.Keeps n m.env env ∧ SlabVars env rank n := by
  apply Performs.append_silent (l := [_]) (performs_assign_ok rfl)
  intro m₁ h₁
  apply Performs.append_silent (l := [_]) (performs_assign_ok rfl)
  intro m₂ h₂
  have hzero : m₂.env[Var.tempName "const_zero" (n + 1)]? = some (.int 0) := by
    rw [h₂]
    exact Env.getElem?_insert_self ..
  have hstarts : Expr.eval m₂.env (.tuple (List.replicate rank (temp c "const_zero" loc (n + 1)))) =
      .ok (Device.origin rank) := by
    rw [Expr.eval, Env.mapM_get_replicate hzero]
    rfl
  refine (performs_assign_ok hstarts).mono fun _ env henv => ?_
  have hkeeps : Env.Keeps n m.env env := by
    rw [henv, h₂, h₁]
    exact (((Env.Keeps.refl n m.env).insert (Nat.le_refl n) _ _).insert (by omega) _ _).insert
      (by omega) _ _
  refine ⟨hkeeps, ?_, ?_, ?_⟩
  · rw [henv, Env.getElem?_insert_of_ne _ (by simp), h₂, Env.getElem?_insert_of_ne _ (by simp), h₁]
    exact Env.getElem?_insert_self ..
  · rw [henv, Env.getElem?_insert_of_ne _ (by simp), hzero]
  · rw [henv]
    exact Env.getElem?_insert_self ..

theorem performs_transferCode (dev : Device σ) (c : FileScope) {e : EntryPoint} (rank : Nat)
    {counts : Expr} {buffer : Var} (loc : Loc) {file name source : Value} (harity : e.arity = 7)
    (hfile : m.env[d.file.name]? = some file) (hname : m.env[d.name.name]? = some name)
    (hbuffer : m.env[buffer.name]? = some source) (gfile : ¬ GeneratedFrom n d.file.name)
    (gname : ¬ GeneratedFrom n d.name.name) (gbuffer : ¬ GeneratedFrom n buffer.name)
    (gcounts : ∀ v ∈ counts.uses, ¬ GeneratedFrom n v.name) :
    Performs dev (transferCode c e d rank counts buffer loc n) m
      (do
        let cs ← Service.ofExcept (counts.eval m.env)
        dev.invoke e [file, name, .int rank, Device.origin rank, cs, .int 0, source])
      fun reply env => ∃ env₁ p vars cs, Env.Keeps n m.env env₁ ∧
        vars.getLast? = some buffer ∧
        prepare e vars [file, name, .int rank, Device.origin rank, cs, .int 0, source] = .ok p ∧
        env = (afterCall env₁ p reply).insert (Var.tempName "h5_err" (n + 4))
          (e.result reply.status) := by
  apply Performs.append_silent (performs_slabVars rank loc) (r := .assign _ counts :: _)
  rintro m₁ ⟨hkeeps, hvars⟩
  rw [hkeeps.eval gcounts]
  apply Performs.append (l := [_]) (performs_assign (id_map _).symm)
  intro cs m₂ h₂
  -- the seven arguments, as the call finds them
  have hcounts : m₂.env[Var.tempName "h5_counts" (n + 3)]? = some cs := by
    rw [h₂]
    exact Env.getElem?_insert_self ..
  have hother : ∀ x, Var.tempName "h5_counts" (n + 3) ≠ x → m₂.env[x]? = m₁.env[x]? := by
    intro x hx
    rw [h₂]
    exact Env.getElem?_insert_of_ne _ hx _
  have hkept : ∀ x v, ¬ GeneratedFrom n x → m.env[x]? = some v → m₂.env[x]? = some v := by
    intro x v hx hv
    rw [hother x (tempName_ne hx (by omega) _), ← hkeeps x hx, hv]
  have hargs : [d.file, d.name, temp c "h5_ndims" loc n, temp c "h5_starts" loc (n + 2),
      temp c "h5_counts" loc (n + 3), temp c "const_zero" loc (n + 1), buffer].mapM m₂.env.get =
        .ok [file, name, .int rank, Device.origin rank, cs, .int 0, source] := by
    apply Env.mapM_get_of_forall₂
    refine .cons (hkept _ _ gfile hfile) (.cons (hkept _ _ gname hname) (.cons ?_ (.cons ?_
      (.cons hcounts (.cons ?_ (.cons (hkept _ _ gbuffer hbuffer) .nil))))))
    · exact (hother _ (by simp)).trans hvars.ndims
    · exact (hother _ (by simp)).trans hvars.starts
    · exact (hother _ (by simp)).trans hvars.zero
  have hgen : ∀ v ∈ [d.file, d.name, temp c "h5_ndims" loc n, temp c "h5_starts" loc (n + 2),
      temp c "h5_counts" loc (n + 3), temp c "const_zero" loc (n + 1), buffer],
      ¬ GeneratedFrom (n + 5) v.name := by
    have hlater : ∀ x, ¬ GeneratedFrom n x → ¬ GeneratedFrom (n + 5) x :=
      fun x hx h => hx (h.mono (by omega))
    simp only [List.forall_mem_cons, temp_name]
    refine ⟨hlater _ gfile, hlater _ gname, ?_, ?_, ?_, ?_, hlater _ gbuffer, by simp⟩ <;>
      exact not_generatedFrom_tempName (by omega)
  refine (performs_callCode hargs hgen harity.symm).mono ?_
  rintro reply env ⟨env₁, p, hkeeps', hp, henv⟩
  refine ⟨env₁, p, _, cs, ?_, rfl, hp, henv⟩
  have hinsert : Env.Keeps n m.env m₂.env := by
    rw [h₂]
    exact hkeeps.insert (by omega) _ _
  exact hinsert.trans (hkeeps'.mono (by omega))

theorem afterCall_read {env : Env} {vars : List Var} {buffer : Var}
    (hlast : vars.getLast? = some buffer) {file name rank starts counts stride : Value}
    {a : ArrayValue} {p : Prepared}
    (hp : prepare .read vars [file, name, rank, starts, counts, stride, .array a] = .ok p)
    (reply : Reply) :
    afterCall env p reply = env.insert buffer.name (.array { a with data := reply.buffer }) := by
  cases prepares_of_prepare hp
  simp [afterCall, hlast]

theorem afterCall_write {env : Env} {vars : List Var} {values : List Value} {p : Prepared}
    (hp : prepare .write vars values = .ok p) (reply : Reply) : afterCall env p reply = env := by
  cases prepares_of_prepare hp
  rfl

/-! ### Extents -/

variable {file name : Value}

theorem performs_extentCall {sizeEntry : Var} (loc : Loc) (dim : Nat)
    (hsize : m.env[sizeEntry.name]? = some (.entry .size))
    (hfile : m.env[d.file.name]? = some file) (hname : m.env[d.name.name]? = some name)
    (gsize : ¬ GeneratedFrom n sizeEntry.name) (gfile : ¬ GeneratedFrom n d.file.name)
    (gname : ¬ GeneratedFrom n d.name.name) :
    Performs dev
      [intConst (temp c "h5_dim" loc n) dim,
        .call (temp c "h5_size" loc (n + 1)) sizeEntry [d.file, d.name, temp c "h5_dim" loc n] []]
      m (dev.extent file name dim) fun extent env => Env.Keeps n m.env env ∧
        env[Var.tempName "h5_size" (n + 1)]? = some (.int extent) := by
  apply Performs.append_silent (l := [_]) (performs_assign_ok rfl)
  intro m₁ h₁
  have hkeeps : Env.Keeps n m.env m₁.env := by
    rw [h₁]
    exact (Env.Keeps.refl n m.env).insert (Nat.le_refl n) _ _
  have hdim : m₁.env[Var.tempName "h5_dim" n]? = some (.int dim) := by
    rw [h₁]
    exact Env.getElem?_insert_self ..
  have hargs : [d.file, d.name, temp c "h5_dim" loc n].mapM m₁.env.get =
      .ok [file, name, .int dim] :=
    Env.mapM_get_of_forall₂ (.cons ((hkeeps _ gfile).symm.trans hfile)
      (.cons ((hkeeps _ gname).symm.trans hname) (.cons hdim .nil)))
  refine (performs_call ((hkeeps _ gsize).symm.trans hsize) rfl hargs).map ?_
  rintro reply env ⟨hstatus, p, hp, henv⟩
  have hafter : afterCall m₁.env p reply = m₁.env := by
    cases prepares_of_prepare hp
    rfl
  rw [hafter] at henv
  refine ⟨?_, ?_⟩
  · rw [henv]
    exact hkeeps.insert (Nat.le_succ n) _ _
  · rw [henv, Int.toNat_of_nonneg hstatus]
    exact Env.getElem?_insert_self ..

theorem performs_extentCode {sizeEntry : Var} (loc : Loc) (dims : List Nat)
    (hsize : m.env[sizeEntry.name]? = some (.entry .size))
    (hfile : m.env[d.file.name]? = some file) (hname : m.env[d.name.name]? = some name)
    (gsize : ¬ GeneratedFrom n sizeEntry.name) (gfile : ¬ GeneratedFrom n d.file.name)
    (gname : ¬ GeneratedFrom n d.name.name) :
    Performs dev (extentCode c sizeEntry d loc dims n) m (dims.mapM (dev.extent file name))
      fun shape env => Env.Keeps n m.env env ∧
        (extentVars c loc dims n).mapM env.get = .ok (Value.ints (shape.map Int.ofNat)) := by
  induction dims generalizing n m with
  | nil => exact performs_nil ⟨Env.Keeps.refl n m.env, rfl⟩
  | cons dim dims ih =>
      rw [List.mapM_cons]
      apply (performs_extentCall loc dim hsize hfile hname gsize gfile gname).append
      rintro extent m₁ ⟨hkeeps, hextent⟩
      have hlater : ∀ x, ¬ GeneratedFrom n x → ¬ GeneratedFrom (n + 2) x :=
        fun x hx h => hx (h.mono (by omega))
      have hrest := ih (m := m₁) (n := n + 2) ((hkeeps _ gsize).symm.trans hsize)
        ((hkeeps _ gfile).symm.trans hfile) ((hkeeps _ gname).symm.trans hname)
        (hlater _ gsize) (hlater _ gfile) (hlater _ gname)
      refine hrest.map fun shape env henv => ⟨hkeeps.trans (henv.1.mono (by omega)), ?_⟩
      have hfirst : env.get (temp c "h5_size" loc (n + 1)) = .ok (.int extent) := by
        rw [Env.get, temp_name, ← henv.1 _ (not_generatedFrom_tempName (by omega)), hextent]
      rw [extentVars, List.mapM_cons, hfirst, ok_bind, henv.2, ok_bind]
      rfl

/-! ### Whole datasets -/

theorem mem_extentVars {loc : Loc} {dims : List Nat} {v : Var} (h : v ∈ extentVars c loc dims n) :
    ∃ k, n ≤ k ∧ k < n + 2 * dims.length ∧ v.name = Var.tempName "h5_size" k := by
  induction dims generalizing n with
  | nil => cases h
  | cons dim dims ih =>
      rw [List.length_cons]
      rcases List.mem_cons.mp h with rfl | hrest
      · exact ⟨n + 1, by omega, by omega, rfl⟩
      · obtain ⟨k, hlo, hhi, hname⟩ := ih hrest
        exact ⟨k, by omega, by omega, hname⟩

theorem eval_alloc {env : Env} {vars : List Var} {shape : List Nat}
    (h : vars.mapM env.get = .ok (Value.ints (shape.map Int.ofNat))) (elem : ElementType) :
    Expr.eval env (.alloc vars elem) =
      .array <$> (ArrayValue.zeros elem shape).mapError .fault := by
  have hdims : (vars.mapM fun v => do (← env.get v).asExtent) = .ok shape := by
    induction vars generalizing shape with
    | nil =>
        cases shape with
        | nil => rfl
        | cons n ns => cases h
    | cons v vs ih =>
        obtain ⟨w, ws, hv, hvs, hshape⟩ := Env.mapM_get_cons_ok h
        cases shape with
        | nil => cases hshape
        | cons n ns =>
            obtain ⟨rfl, rfl⟩ := List.cons.inj hshape
            have hextent : Value.asExtent (.int (Int.ofNat n)) = .ok n := rfl
            rw [List.mapM_cons, Env.get, hv, ok_bind, hextent, ok_bind, ih hvs, ok_bind]
            rfl
  rw [Expr.eval, hdims]
  change (ArrayValue.zeros elem shape).mapError Stop.fault >>= (fun a => pure (Value.array a)) = _
  exact bind_pure_comp ..

theorem performs_readCode {target : Var} (type : ArrayType)
    (hfile : m.env[d.file.name]? = some file) (hname : m.env[d.name.name]? = some name)
    (gfile : ¬ GeneratedFrom n d.file.name) (gname : ¬ GeneratedFrom n d.name.name)
    (gtarget : ¬ GeneratedFrom n target.name) (hnefile : target.name ≠ d.file.name)
    (hnename : target.name ≠ d.name.name) :
    Performs dev (readCode c target d type n) m (dev.readWhole file name type) fun a env =>
      Env.Keeps n (m.env.insert target.name (.array a)) env := by
  have hlater : ∀ x k, n ≤ k → ¬ GeneratedFrom n x → ¬ GeneratedFrom k x :=
    fun x k hk hx h => hx (h.mono hk)
  simp only [readCode, List.append_assoc]
  apply (performs_loadCode .size target.loc).append_silent
  rintro m₁ ⟨hkeeps₁, hentry⟩
  apply (performs_extentCode target.loc (List.range type.rank) hentry
    ((hkeeps₁ _ gfile).symm.trans hfile) ((hkeeps₁ _ gname).symm.trans hname)
    (not_generatedFrom_tempName (by omega)) (hlater _ _ (by omega) gfile)
    (hlater _ _ (by omega) gname)).append
  rintro shape m₂ ⟨hkeeps₂, hshape⟩
  have hkeeps : Env.Keeps n m.env m₂.env := hkeeps₁.trans (hkeeps₂.mono (by omega))
  apply (performs_assign (eval_alloc hshape type.elem)).append
  intro a m₃ h₃
  -- the allocation hides neither the extents nor what is read
  have hvars : ∀ v ∈ extentVars c target.loc (List.range type.rank) (n + 2),
      target.name ≠ v.name ∧ ¬ GeneratedFrom (n + 2 + 2 * type.rank) v.name := by
    intro v hv
    obtain ⟨k, hlo, hhi, hname⟩ := mem_extentVars hv
    rw [List.length_range] at hhi
    rw [hname]
    exact ⟨(tempName_ne gtarget (by omega) _).symm, not_generatedFrom_tempName hhi⟩
  have hother : ∀ x, target.name ≠ x → m₃.env[x]? = m₂.env[x]? := by
    intro x hx
    rw [h₃, Env.getElem?_insert_of_ne _ hx]
  have hcounts : Expr.eval m₃.env
      (.tuple (extentVars c target.loc (List.range type.rank) (n + 2))) =
      .ok (.tuple (Value.ints (shape.map Int.ofNat))) := by
    have hagree : Env.Agree (target.name ≠ ·) m₃.env m₂.env := hother
    rw [Expr.eval, hagree.mapM_get fun v hv => (hvars v hv).1, hshape]
    rfl
  have huses : ∀ v ∈ (Expr.tuple (extentVars c target.loc (List.range type.rank) (n + 2))).uses,
      ¬ GeneratedFrom (n + 2 + 2 * type.rank) v.name := fun v hv => (hvars v hv).2
  have hmove := performs_transferCode dev c type.rank target.loc (e := .read) rfl
    ((hother _ hnefile).trans ((hkeeps _ gfile).symm.trans hfile))
    ((hother _ hnename).trans ((hkeeps _ gname).symm.trans hname))
    (show m₃.env[target.name]? = some (.array a) by rw [h₃, Env.getElem?_insert_self])
    (hlater _ _ (by omega) gfile) (hlater _ _ (by omega) gname) (hlater _ _ (by omega) gtarget)
    huses
  rw [hcounts, Service.ofExcept_ok_bind] at hmove
  refine hmove.map ?_
  rintro reply env ⟨env₁, p, vars, cs, hkeeps', hlast, hp, henv⟩
  rw [afterCall_read hlast hp] at henv
  intro x hx
  rw [henv, Env.getElem?_insert_of_ne _ (tempName_ne hx (by omega) _)]
  by_cases htarget : target.name = x
  · rw [← htarget, Env.getElem?_insert_self, Env.getElem?_insert_self]
  · rw [Env.getElem?_insert_of_ne _ htarget, Env.getElem?_insert_of_ne _ htarget,
      ← hkeeps' x (hlater _ _ (by omega) hx), hother x htarget, hkeeps x hx]

theorem performs_writeCode {rank : Nat} {source : Var} (loc : Loc) {value : Value}
    (hfile : m.env[d.file.name]? = some file) (hname : m.env[d.name.name]? = some name)
    (hsource : m.env[source.name]? = some value)
    (gfile : ¬ GeneratedFrom n d.file.name) (gname : ¬ GeneratedFrom n d.name.name)
    (gsource : ¬ GeneratedFrom n source.name) :
    Performs dev (transferCode c .write d rank (.attr source "shape") source loc n) m
      (dev.writeWhole file name rank value) fun _ env => Env.Keeps n m.env env := by
  have hshape : Expr.eval m.env (.attr source "shape") = (value.attr "shape").mapError .failed := by
    have hget : m.env.get source = .ok value := by rw [Env.get, hsource]
    rw [Expr.eval, hget]
    rfl
  have huses : ∀ v ∈ (Expr.attr source "shape").uses, ¬ GeneratedFrom n v.name := by
    simpa [Expr.uses] using gsource
  have hmove := performs_transferCode dev c rank loc (e := .write) rfl hfile hname hsource gfile
    gname gsource huses
  rw [hshape] at hmove
  refine hmove.mono ?_
  rintro reply env ⟨env₁, p, vars, cs, hkeeps, -, hp, henv⟩
  rw [afterCall_write hp] at henv
  rw [henv]
  exact hkeeps.insert (by omega) _ _

end Expand

end SpmdArrays
