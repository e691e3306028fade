import SpmdArrays.FileCalls.Expand

/-!
The statements that stand for a file call, in closed form. Which temporaries an
emitter takes depends on the counter alone, so each of them is equal to a list of
statements that is a plain function of the counter, and moves the counter on by
a known amount. The facts are not touched by any of them.
-/

namespace SpmdArrays

namespace Expansion

def skip (st : Expansion) (n : Nat) : Expansion := { st with nextTemp := st.nextTemp + n }

def learn (st : Expansion) (v : Var) (add : Known → Known) : Expansion :=
  { st with facts := st.facts.learn v.name add }

def about (st : Expansion) (v : Var) : Known := st.facts.about v.name

@[simp] theorem skip_facts (st : Expansion) (n : Nat) : (st.skip n).facts = st.facts := rfl

@[simp] theorem skip_nextTemp (st : Expansion) (n : Nat) :
    (st.skip n).nextTemp = st.nextTemp + n := rfl

@[simp] theorem learn_facts (st : Expansion) (v : Var) (add : Known → Known) :
    (st.learn v add).facts = st.facts.learn v.name add := rfl

@[simp] theorem learn_nextTemp (st : Expansion) (v : Var) (add : Known → Known) :
    (st.learn v add).nextTemp = st.nextTemp := rfl

end Expansion

namespace Expand

/-! ### Computations, one operation at a time -/

theorem about_apply (v : Var) (st : Expansion) :
    Expand.about v st = .ok (st.about v, st) := rfl

theorem modifyFacts_apply (g : Facts → Facts) (st : Expansion) :
    modifyFacts g st = .ok ((), { st with facts := g st.facts }) := rfl

theorem unsupported_apply {α : Type} (c : FileScope) (loc : Loc) (cause : FileOpCause)
    (st : Expansion) :
    (unsupported c loc cause : Expand α) st =
      .error (.failed ⟨c.func, loc, .unsupported cause⟩) := rfl

theorem pure_apply {α : Type} (a : α) (st : Expansion) :
    (pure a : Expand α) st = .ok (a, st) := rfl

theorem bind_apply {α β : Type} (x : Expand α) (g : α → Expand β) (st : Expansion) :
    (x >>= g) st =
      match x st with
      | .ok (a, st') => g a st'
      | .error e => .error e := by
  simp only [bind, StateT.bind, Except.bind]
  cases x st <;> rfl

theorem bind_eq_ok {α β : Type} {x : Expand α} {g : α → Expand β} {st st' : Expansion} {b : β}
    (h : (x >>= g) st = .ok (b, st')) :
    ∃ a s₁, x st = .ok (a, s₁) ∧ g a s₁ = .ok (b, st') := by
  rw [bind_apply] at h
  cases hx : x st with
  | error e => rw [hx] at h; cases h
  | ok r =>
      obtain ⟨a, s₁⟩ := r
      rw [hx] at h
      exact ⟨a, s₁, rfl, h⟩

theorem facts_apply (st : Expansion) : facts st = .ok (st.facts, st) := rfl

theorem ofExcept_ok {α : Type} (a : α) (st : Expansion) :
    ofExcept (.ok a) st = .ok (a, st) := rfl

theorem reserveVars_eq_ok {rank : Nat} {st st' : Expansion} {u : Unit}
    (h : reserveVars rank st = .ok (u, st')) : st' = st := by
  unfold reserveVars at h
  cases hroom : reserve varWidth rank with
  | error f => rw [hroom] at h; cases h
  | ok _ =>
      rw [hroom] at h
      cases h
      rfl

def temp (c : FileScope) (stem : String) (loc : Loc) (n : Nat) : Var :=
  ⟨c.scope, Var.tempName stem n, loc⟩

@[simp] theorem temp_name (c : FileScope) (stem : String) (loc : Loc) (n : Nat) :
    (temp c stem loc n).name = Var.tempName stem n := rfl

theorem fresh_eq (c : FileScope) (stem : String) (loc : Loc) (st : Expansion) :
    fresh c stem loc st = .ok (temp c stem loc st.nextTemp, st.skip 1) := rfl

/-! ### Calls -/

/-- The variable that holds an entry point loaded from counter `n` on. -/
def entryVar (c : FileScope) (e : EntryPoint) (loc : Loc) (n : Nat) : Var :=
  temp c e.name loc (n + 1)

def loadCode (c : FileScope) (e : EntryPoint) (loc : Loc) (n : Nat) : List Stmt :=
  [.assign (temp c "io_abi" loc n) (.global .ioAbi),
    .assign (entryVar c e loc n) (.attr (temp c "io_abi" loc n) e.name)]

theorem loadEntry_eq (c : FileScope) (e : EntryPoint) (loc : Loc) (st : Expansion) :
    loadEntry c e loc st =
      .ok ((entryVar c e loc st.nextTemp, loadCode c e loc st.nextTemp), st.skip 2) := rfl

def callCode (c : FileScope) (e : EntryPoint) (args : List Var) (target : Var) (n : Nat) :
    List Stmt :=
  loadCode c e target.loc n ++ [.call target (entryVar c e target.loc n) args []]

/-! ### Transfers -/

def transferCode (c : FileScope) (e : EntryPoint) (d : DatasetRef) (rank : Nat) (counts : Expr)
    (buffer : Var) (loc : Loc) (n : Nat) : List Stmt :=
  let ndims := temp c "h5_ndims" loc n
  let zero := temp c "const_zero" loc (n + 1)
  let starts := temp c "h5_starts" loc (n + 2)
  let countsVar := temp c "h5_counts" loc (n + 3)
  let status := temp c "h5_err" loc (n + 4)
  [intConst ndims rank, intConst zero 0, .assign starts (.tuple (List.replicate rank zero)),
      .assign countsVar counts] ++
    callCode c e [d.file, d.name, ndims, starts, countsVar, zero, buffer] status (n + 5)

theorem transfer_eq (c : FileScope) (e : EntryPoint) (d : DatasetRef) (rank : Nat)
    (counts : Expr) (buffer : Var) (loc : Loc) (st : Expansion) :
    transfer c e d rank counts buffer loc st =
      .ok (transferCode c e d rank counts buffer loc st.nextTemp, st.skip 7) := rfl

def extentVars (c : FileScope) (loc : Loc) : List Nat → Nat → List Var
  | [], _ => []
  | _ :: dims, n => temp c "h5_size" loc (n + 1) :: extentVars c loc dims (n + 2)

def extentCode (c : FileScope) (sizeEntry : Var) (d : DatasetRef) (loc : Loc) :
    List Nat → Nat → List Stmt
  | [], _ => []
  | dim :: dims, n =>
    intConst (temp c "h5_dim" loc n) dim ::
      .call (temp c "h5_size" loc (n + 1)) sizeEntry [d.file, d.name, temp c "h5_dim" loc n] [] ::
      extentCode c sizeEntry d loc dims (n + 2)

theorem extents_eq (c : FileScope) (sizeEntry : Var) (d : DatasetRef) (loc : Loc)
    (dims : List Nat) (st : Expansion) :
    extents c sizeEntry d loc dims st =
      .ok ((extentVars c loc dims st.nextTemp, extentCode c sizeEntry d loc dims st.nextTemp),
        st.skip (2 * dims.length)) := by
  induction dims generalizing st with
  | nil => rfl
  | cons dim dims ih =>
      have hrest := ih (st.skip 2)
      have hskip : (st.skip 2).skip (2 * dims.length) = st.skip (2 * (dim :: dims).length) := by
        simp only [Expansion.skip, List.length_cons]
        congr 1
        omega
      rw [hskip] at hrest
      rw [show st.skip 2 = (st.skip 1).skip 1 from rfl] at hrest
      rw [extents]
      simp only [bind, StateT.bind, fresh_eq, Except.bind, hrest]
      rfl

/-- Reads a whole dataset of the given type. -/
def readCode (c : FileScope) (target : Var) (d : DatasetRef) (type : ArrayType) (n : Nat) :
    List Stmt :=
  let dims := List.range type.rank
  let vars := extentVars c target.loc dims (n + 2)
  loadCode c .size target.loc n ++
    extentCode c (entryVar c .size target.loc n) d target.loc dims (n + 2) ++
    [.assign target (.alloc vars type.elem)] ++
    transferCode c .read d type.rank (.tuple vars) target target.loc (n + 2 + 2 * type.rank)

def readTemps (type : ArrayType) : Nat := 9 + 2 * type.rank

/-- The type of a read is resolved, and the variables that hold its extents have to fit in
the address space; all else is its code. -/
theorem read_eq (c : FileScope) (target : Var) (d : DatasetRef) (st : Expansion) :
    read c target d st =
      match c.resolve st.facts target d with
      | .error e => .error (.failed e)
      | .ok type => ((reserve varWidth type.rank).mapError .fault).map fun _ =>
          (readCode c target d type st.nextTemp, st.skip (readTemps type)) := by
  unfold read
  rw [bind_apply, facts_apply]
  simp only [bind_apply]
  cases c.resolve st.facts target d with
  | error e => rfl
  | ok type =>
      simp only [ofExcept_ok, reserveVars]
      cases reserve varWidth type.rank with
      | error e => rfl
      | ok u =>
          have hskip : ((st.skip 2).skip (2 * type.rank)).skip 7 = st.skip (readTemps type) := by
            simp only [Expansion.skip, readTemps]
            congr 1
            omega
          simp only [mapError_ok, loadEntry_eq, extents_eq, transfer_eq, pure_apply,
            Expansion.skip_nextTemp, List.length_range, readCode, ← hskip]
          rfl

theorem read_eq_ok {c : FileScope} {target : Var} {d : DatasetRef} {st st' : Expansion}
    {out : List Stmt} (h : read c target d st = .ok (out, st')) :
    ∃ type, c.resolve st.facts target d = .ok type ∧
      out = readCode c target d type st.nextTemp ∧ st' = st.skip (readTemps type) := by
  rw [read_eq] at h
  cases htype : c.resolve st.facts target d with
  | error e =>
      rw [htype] at h
      cases h
  | ok type =>
      rw [htype] at h
      dsimp only at h
      cases hroom : reserve varWidth type.rank with
      | error e =>
          rw [hroom] at h
          cases h
      | ok u =>
          rw [hroom] at h
          cases h
          exact ⟨type, rfl, rfl, rfl⟩

end Expand

end SpmdArrays
