import SpmdArrays.Proofs.FileCalls.Recognition
import SpmdArrays.Proofs.Program.Assignments

/-!
Which declaration decides the type of a read. Of all names that the result is copied
into, one is noted: the target of the last plain copy in the block. It is noted before the
statements of the block are looked at, and no statement changes it. So a declaration
behind a second copy, and one of an earlier target, are never seen.
-/

namespace SpmdArrays

/-- The name that a statement copies `x` into. -/
def Stmt.copyOf? (x : String) : Stmt → Option String
  | .assign target (.copy source) => if source.name = x then some target.name else none
  | _ => none

def copyTargets (x : String) (body : List Stmt) : List String := body.filterMap (Stmt.copyOf? x)

/-- One name is copied into the other, directly or along a chain of copies. -/
inductive CopiedInto (body : List Stmt) : String → String → Prop
  | direct {x y : String} (h : y ∈ copyTargets x body) : CopiedInto body x y
  | through {x y z : String} (h : y ∈ copyTargets x body) (h' : CopiedInto body y z) :
      CopiedInto body x z

namespace Facts

theorem copiedTo_learn (f : Facts) (name : String) {add : Known → Known}
    (hadd : ∀ k, (add k).copiedTo = k.copiedTo) (x : String) :
    ((f.learn name add).about x).copiedTo = (f.about x).copiedTo := by
  rw [about_learn]
  split
  · exact hadd _
  · rfl

theorem copiedTo_noteCopies_singleton (f : Facts) (s : Stmt) (x : String) :
    ((f.noteCopies [s]).about x).copiedTo = (s.copyOf? x).or (f.about x).copiedTo := by
  cases s with
  | assign target value =>
      cases value with
      | copy source =>
          show ((f.learn source.name fun k => { k with copiedTo := some target.name }).about
            x).copiedTo = _
          rw [about_learn, Stmt.copyOf?]
          split <;> rfl
      | _ => rfl
  | call | store => rfl

/-- After a row of copies, the last one of a name is noted. -/
theorem copiedTo_noteCopies (f : Facts) (body : List Stmt) (x : String) :
    ((f.noteCopies body).about x).copiedTo =
      (copyTargets x body).getLast?.or (f.about x).copiedTo := by
  induction body generalizing f with
  | nil => rfl
  | cons s body ih =>
      have hcons : f.noteCopies (s :: body) = (f.noteCopies [s]).noteCopies body := rfl
      rw [hcons, ih, copiedTo_noteCopies_singleton, copyTargets, copyTargets, List.filterMap_cons]
      cases s.copyOf? x with
      | none => rfl
      | some y =>
          rw [List.getLast?_cons]
          cases (body.filterMap (Stmt.copyOf? x)).getLast? <;> rfl

theorem copiedTo_noteConst (f : Facts) (v : Var) (lit : Literal) (x : String) :
    ((f.noteConst v lit).about x).copiedTo = (f.about x).copiedTo := by
  cases lit with
  | str s =>
      apply copiedTo_learn
      exact fun _ => rfl
  | int _ | float _ | bool _ | absent | slice _ => rfl

end Facts

namespace Expand

variable {c : FileScope} {st st₁ : Expansion}

theorem Expands.copiedTo_eq {s : Stmt} {out : List Stmt} (h : Expands c st s out st₁) (x : String) :
    (st₁.facts.about x).copiedTo = (st.facts.about x).copiedTo := by
  cases h with
  | frontEnd | opener | datasetItem | tuple | copy | openFile | createDataset | createGroup =>
      apply Facts.copiedTo_learn
      exact fun _ => rfl
  | method t base m =>
      apply Facts.copiedTo_learn
      exact fun _ => by cases m <;> rfl
  | const t lit => exact Facts.copiedTo_noteConst ..
  | datasetVar | datasetKey =>
      refine (Facts.copiedTo_learn _ _ ?_ x).trans (Facts.copiedTo_noteConst ..)
      exact fun _ => rfl
  | read | plain | closeFile | call | write | store => rfl

theorem copiedTo_of_stmts {ss out : List Stmt} (h : stmts c ss st = .ok (out, st₁)) (x : String) :
    (st₁.facts.about x).copiedTo = (st.facts.about x).copiedTo := by
  induction ss generalizing st out with
  | nil =>
      cases h
      rfl
  | cons s ss ih =>
      obtain ⟨_, s₁, _, hs, hss, -⟩ := stmts_cons_ok h
      rw [ih hss, (expands_of_stmt hs).copiedTo_eq]

theorem stmt_of_read {x base : Var} {index : Literal} {indexVar : Option Var} {d : DatasetRef}
    (hfile : (st.about base).file = none) (hdataset : (st.about base).dataset = some d)
    (hindex : index.isFullSlice = true) :
    stmt c (.assign x (.constItem base index indexVar)) st = read c x d st := by
  show assign c x (.constItem base index indexVar) st = read c x d st
  unfold assign
  simp only [bind_apply, about_apply, hfile, hdataset, hindex, Option.isSome_none, if_true]
  rfl

variable {b : Block} {x base : Var} {index : Literal} {indexVar : Option Var} {d : DatasetRef}
  {front rest done : List Stmt} {y : String}

theorem block_of_front {s : Stmt} (hbody : b.body = front ++ s :: rest)
    (hfront : stmts c front { st with facts := st.facts.noteCopies b.body } = .ok (done, st₁)) :
    block c b st =
      match stmt c s st₁ with
      | .error e => .error e
      | .ok (out, st₂) => (stmts c rest st₂).map fun r =>
          ({ b with body := done ++ (out ++ r.1) }, r.2) := by
  have hstmts : stmts c b.body { st with facts := st.facts.noteCopies b.body } =
      (stmts c (s :: rest) st₁).map fun r => (done ++ r.1, r.2) := by
    rw [← stmts_append_eq hfront, ← hbody]
  rw [block_apply, hstmts, stmts_cons_apply]
  cases stmt c s st₁ with
  | error e => rfl
  | ok r =>
      dsimp only
      cases stmts c rest r.2 <;> rfl

/-- A variable without a declaration is taken for the last name it is copied into in the
block, and for nothing else. If that name is declared, the read has the declared type, and
only a lack of room for its code can stop it. If it is not, the catalog decides, whatever
else the variable is copied into, directly or along a chain. -/
theorem read_type_of_last_copy
    (hbody : b.body = front ++ .assign x (.constItem base index indexVar) :: rest)
    (hfront : stmts c front { st with facts := st.facts.noteCopies b.body } = .ok (done, st₁))
    (hfile : (st₁.about base).file = none) (hdataset : (st₁.about base).dataset = some d)
    (hindex : index.isFullSlice = true) (hx : c.locals[x.name]? = none)
    (hy : (copyTargets x.name b.body).getLast? = some y) :
    (∀ t, c.locals[y]? = some t →
      c.resolve st₁.facts x d = .ok t ∧
      block c b st = ((reserve varWidth t.rank).mapError .fault).bind fun _ =>
        (stmts c rest (st₁.skip (readTemps t))).map fun r =>
          ({ b with body := done ++ (readCode c x d t st₁.nextTemp ++ r.1) }, r.2)) ∧
    (c.locals[y]? = none →
      c.resolve st₁.facts x d = c.introspect st₁.facts x d ∧
      ∀ e, c.introspect st₁.facts x d = .error e → block c b st = .error (.failed e)) := by
  have hnoted : (st₁.facts.about x.name).copiedTo = some y := by
    rw [copiedTo_of_stmts hfront, Facts.copiedTo_noteCopies, hy, Option.some_or]
  have hdeclared : c.declared? st₁.facts x = c.locals[y]? := by
    rw [FileScope.declared?, hx, hnoted, Option.bind_some]
  rw [block_of_front hbody hfront, stmt_of_read hfile hdataset hindex, read_eq]
  refine ⟨fun t ht => ?_, fun hnone => ?_⟩
  · have hresolve : c.resolve st₁.facts x d = .ok t := by
      rw [FileScope.resolve, hdeclared, ht]
    rw [hresolve]
    refine ⟨rfl, ?_⟩
    dsimp only
    cases reserve varWidth t.rank <;> rfl
  · have hresolve : c.resolve st₁.facts x d = c.introspect st₁.facts x d := by
      rw [FileScope.resolve, hdeclared, hnone]
    rw [hresolve]
    exact ⟨rfl, fun e he => by rw [he]⟩

def declaringZ (catalog : Option Inspector) : FileScope where
  func := "main"
  locals := Std.TreeMap.empty.insert "z" ⟨.int32, 1⟩
  catalog

/-- Of two names the last one is declared, and its type is taken without a catalog. -/
theorem read_type_of_second_copy :
    let d : DatasetRef := ⟨⟨0, "f", ⟨1, 1⟩⟩, ⟨0, "n", ⟨1, 1⟩⟩⟩
    let x : Var := ⟨0, "x", ⟨2, 1⟩⟩
    let copies : List Stmt :=
      [.assign ⟨0, "y", ⟨3, 1⟩⟩ (.copy x), .assign ⟨0, "z", ⟨4, 1⟩⟩ (.copy x)]
    let b : Block :=
      ⟨.assign x (.constItem ⟨0, "e", ⟨2, 1⟩⟩ (.slice .full) none) :: copies, .ret none⟩
    let st : Expansion := ⟨Facts.learn {} "e" fun k => { k with dataset := some d }, 0⟩
    (copyTargets x.name b.body).getLast? = some "z" ∧
      (declaringZ none).resolve (st.facts.noteCopies b.body) x d = .ok ⟨.int32, 1⟩ := by
  intro d x copies b st
  have hy : (copyTargets x.name b.body).getLast? = some "z" := by decide
  have hbody : b.body =
      [] ++ .assign x (.constItem ⟨0, "e", ⟨2, 1⟩⟩ (.slice .full) none) :: copies := rfl
  have hfront : stmts (declaringZ none) [] { st with facts := st.facts.noteCopies b.body } =
      .ok ([], { st with facts := st.facts.noteCopies b.body }) := rfl
  have hz : (declaringZ none).locals["z"]? = some ⟨.int32, 1⟩ := by decide +kernel
  have hread := read_type_of_last_copy (d := d) hbody hfront (by decide +kernel)
    (by decide +kernel) (by decide) (by decide +kernel) hy
  exact ⟨hy, (hread.1 _ hz).1⟩

/-! ### A chain and a second target -/

/-- Reads a whole dataset into `x` and goes on with copies. -/
def readThen (copies : List Stmt) : Block where
  body := [.assign ⟨0, "m", ⟨1, 1⟩⟩ (.global .h5py),
    .assign ⟨0, "open", ⟨2, 1⟩⟩ (.attr ⟨0, "m", ⟨2, 1⟩⟩ "File"),
    .assign ⟨0, "n", ⟨3, 1⟩⟩ (.const (.str "a.h5")),
    .call ⟨0, "f", ⟨4, 1⟩⟩ ⟨0, "open", ⟨4, 1⟩⟩ [⟨0, "n", ⟨4, 1⟩⟩] [],
    .assign ⟨0, "e", ⟨5, 1⟩⟩ (.constItem ⟨0, "f", ⟨5, 1⟩⟩ (.str "d") none),
    .assign ⟨0, "x", ⟨6, 1⟩⟩ (.constItem ⟨0, "e", ⟨6, 1⟩⟩ (.slice .full) none)] ++ copies
  term := .ret (some ⟨0, "z", ⟨9, 1⟩⟩)

def allocated (r : Except (Stop FileError) (Block × Expansion)) :
    List ElementType ⊕ Stop FileError :=
  match r with
  | .ok (b, _) => .inl (b.body.filterMap fun s =>
      match s with
      | .assign _ (.alloc _ elem) => some elem
      | _ => none)
  | .error e => .inr e

def singleDataset : Catalog := BySource.empty.insert "a.h5" "d" ⟨.float64, [2]⟩

/-- The variable `x` is copied into `z`, which is declared, but the read needs a catalog and
takes the type that it gives. -/
structure Unseen (copies : List Stmt) : Prop where
  once : (definedNames (readThen copies).body).Nodup
  copied : CopiedInto (readThen copies).body "x" "z"
  unresolved : allocated (block (declaringZ none) (readThen copies) { nextTemp := 0 }) =
    .inr (.failed ⟨"main", ⟨6, 1⟩, .typeUnresolved "x" .noCatalog⟩)
  introspected : allocated (block (declaringZ (some singleDataset.inspect)) (readThen copies)
      { nextTemp := 0 }) = .inl [.float64]

/-- A declaration is not seen behind a second copy, nor in front of one. -/
theorem declared_copy_unseen :
    Unseen [.assign ⟨0, "y", ⟨7, 1⟩⟩ (.copy ⟨0, "x", ⟨7, 1⟩⟩),
        .assign ⟨0, "z", ⟨8, 1⟩⟩ (.copy ⟨0, "y", ⟨8, 1⟩⟩)] ∧
      Unseen [.assign ⟨0, "z", ⟨7, 1⟩⟩ (.copy ⟨0, "x", ⟨7, 1⟩⟩),
        .assign ⟨0, "y", ⟨8, 1⟩⟩ (.copy ⟨0, "x", ⟨8, 1⟩⟩)] := by
  constructor
  · exact
      { once := by decide
        copied := .through (y := "y") (by decide) (.direct (by decide))
        unresolved := by decide +kernel
        introspected := by decide +kernel }
  · exact
      { once := by decide
        copied := .direct (by decide)
        unresolved := by decide +kernel
        introspected := by decide +kernel }

end Expand

end SpmdArrays
