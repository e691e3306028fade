import Mathlib.Data.List.Forall2
import Mathlib.Data.List.Nodup
import SpmdArrays.FileCalls.Pipeline
import SpmdArrays.Proofs.FileCalls.Recognition
import SpmdArrays.Proofs.Program.VisitingOrder

/-!
What a list of passes does to a module. A pass looks at one function at a time and keeps its
name, so a run that goes through makes of every function what the passes make of it alone. A
run that fails has gone through some passes on all functions and through the next one on some
functions from the front; the function it fails on and those behind it are as the passes
before left them. In both cases every name leads to the function in the place where it was.
-/

namespace SpmdArrays

namespace Pass

/-- What the passes make of one function, one after the other. -/
def chain : List Pass → Function → Except (Stop FileError) Function
  | [], f => .ok f
  | .deadCode :: ps, f => chain ps f.withoutDead
  | .fileCalls settings catalog :: ps, f => do
    chain ps (← f.expandFiles (if settings.staticIntrospection then catalog else none))

theorem forall₂_chain_nil (fs : List Function) :
    List.Forall₂ (fun f g => chain [] f = .ok g) fs fs :=
  List.forall₂_same.mpr fun _ _ => rfl

theorem chain_cons {p : Pass} {f g : Function} (h : p.onFunction f = .ok g) (ps : List Pass) :
    chain (p :: ps) f = chain ps g := by
  cases p with
  | deadCode =>
      cases h
      rfl
  | fileCalls settings catalog =>
      have hg : f.expandFiles (if settings.staticIntrospection then catalog else none) = .ok g := h
      rw [chain, hg]
      rfl

/-- How a run of passes over functions can end. -/
inductive Ended (ps : List Pass) (fs : List Function) :
    Except (String × Stop FileError) Unit → List Function → Prop
  /-- All functions went through all passes. -/
  | through {gs : List Function} (hall : List.Forall₂ (fun f g => chain ps f = .ok g) fs gs) :
      Ended ps fs (.ok ()) gs
  /-- All functions went through the passes in `done`, those in front of `f` also through the
  next one, which fails on `f` as it is by then. -/
  | stopped (done rest : List Pass) {settings : Settings} {catalog : Option Inspector}
      (front back : List Function) {gs : List Function} {f : Function} {e : Stop FileError}
      (hps : ps = done ++ .fileCalls settings catalog :: rest)
      (hdone : List.Forall₂ (fun f g => chain done f = .ok g) fs (front ++ f :: back))
      (hfront : List.Forall₂ (fun f g =>
        f.expandFiles (if settings.staticIntrospection then catalog else none) = .ok g) front gs)
      (hfail : f.expandFiles (if settings.staticIntrospection then catalog else none) = .error e) :
      Ended ps fs (.error ((fileCalls settings catalog).name, e)) (gs ++ f :: back)

variable {p : Pass} {ps : List Pass} {fs gs hs : List Function}
  {outcome : Except (String × Stop FileError) Unit}

/-! ### One pass -/

/-- Only the pass over file calls can fail. -/
theorem onFunction_eq_error {f : Function} {e : Stop FileError} (h : p.onFunction f = .error e) :
    ∃ settings catalog, p = .fileCalls settings catalog ∧
      f.expandFiles (if settings.staticIntrospection then catalog else none) = .error e := by
  cases p with
  | deadCode => cases h
  | fileCalls settings catalog => exact ⟨settings, catalog, rfl, h⟩

/-- A pass goes through all functions, or up to the first that it fails on. -/
theorem onFunctions_cases (p : Pass) (fs : List Function) :
    (∃ gs, p.onFunctions fs = (.ok (), gs) ∧
        List.Forall₂ (fun f g => p.onFunction f = .ok g) fs gs) ∨
      ∃ front f back gs e, fs = front ++ f :: back ∧
        List.Forall₂ (fun f g => p.onFunction f = .ok g) front gs ∧ p.onFunction f = .error e ∧
        p.onFunctions fs = (.error e, gs ++ f :: back) := by
  induction fs with
  | nil => exact Or.inl ⟨[], rfl, .nil⟩
  | cons f fs ih =>
      cases hf : p.onFunction f with
      | error e =>
          refine Or.inr ⟨[], f, fs, [], e, rfl, .nil, hf, ?_⟩
          rw [onFunctions, hf]
          rfl
      | ok g =>
          rcases ih with ⟨gs, hrun, hall⟩ | ⟨front, k, back, gs, e, rfl, hfront, hfail, hrun⟩
          · refine Or.inl ⟨g :: gs, ?_, .cons hf hall⟩
            rw [onFunctions, hf, hrun]
          · refine Or.inr ⟨f :: front, k, back, g :: gs, e, rfl, .cons hf hfront, hfail, ?_⟩
            rw [onFunctions, hf, hrun]
            rfl

/-! ### All passes -/

theorem forall₂_chain_cons (h : List.Forall₂ (fun f g => p.onFunction f = .ok g) fs gs)
    (hrest : List.Forall₂ (fun f g => chain ps f = .ok g) gs hs) :
    List.Forall₂ (fun f g => chain (p :: ps) f = .ok g) fs hs := by
  induction h generalizing hs with
  | nil => cases hrest; exact .nil
  | cons hf _ ih =>
      cases hrest with
      | cons hg hrest => exact .cons ((chain_cons hf ps).trans hg) (ih hrest)

theorem Ended.cons (h : List.Forall₂ (fun f g => p.onFunction f = .ok g) fs gs)
    (hend : Ended ps gs outcome hs) : Ended (p :: ps) fs outcome hs := by
  cases hend with
  | through hall => exact .through (forall₂_chain_cons h hall)
  | stopped done rest front back hps hdone hfront hfail =>
      exact .stopped (p :: done) rest front back (by rw [hps, List.cons_append])
        (forall₂_chain_cons h hdone) hfront hfail

theorem expandFiles_name {f g : Function} {catalog : Option Inspector}
    (h : f.expandFiles catalog = .ok g) : g.name = f.name := by
  obtain ⟨bs, st, -, rfl⟩ := Function.expandFiles_ok h
  rfl

theorem chain_name {ps : List Pass} {f g : Function} (h : chain ps f = .ok g) :
    g.name = f.name := by
  fun_induction chain ps f with
  | case1 f =>
      cases h
      rfl
  | case2 ps f ih => exact ih h
  | case3 settings catalog ps f ih =>
      obtain ⟨k, hk, hrest⟩ := exists_of_bind_ok h
      exact (ih k hrest).trans (expandFiles_name hk)

theorem names_eq {r : Function → Function → Prop} (hr : ∀ f g, r f g → g.name = f.name)
    (h : List.Forall₂ r fs gs) : gs.map Function.name = fs.map Function.name := by
  induction h with
  | nil => rfl
  | cons hfg _ ih => rw [List.map_cons, List.map_cons, hr _ _ hfg, ih]

theorem Ended.names (h : Ended ps fs outcome gs) :
    gs.map Function.name = fs.map Function.name := by
  cases h with
  | through hall => exact names_eq (fun _ _ => chain_name) hall
  | stopped done rest front back _ hdone hfront _ =>
      rw [← names_eq (fun _ _ => chain_name) hdone, List.map_append, List.map_append,
        names_eq (fun _ _ => expandFiles_name) hfront]

end Pass

namespace Module

open Pass

variable {m n : Module}

/-- Every run of passes ends in one of two ways, and touches the functions only. -/
theorem ended_runPasses (m : Module) (ps : List Pass) :
    ∃ outcome n, m.runPasses ps = (outcome, n) ∧ n.name = m.name ∧
      Ended ps m.functions.toList outcome n.functions.toList := by
  induction ps generalizing m with
  | nil =>
      exact ⟨.ok (), m, by rw [runPasses], rfl, .through (forall₂_chain_nil _)⟩
  | cons p ps ih =>
      rcases p.onFunctions_cases m.functions.toList with
        ⟨gs, hrun, hall⟩ | ⟨front, f, back, gs, e, hsplit, hfront, hfail, hrun⟩
      · obtain ⟨outcome, n, hrest, hname, hend⟩ := ih { m with functions := gs.toArray }
        refine ⟨outcome, n, ?_, hname, .cons hall hend⟩
        rw [runPasses, Pass.onModule, hrun]
        exact hrest
      · obtain ⟨settings, catalog, rfl, hexpand⟩ := onFunction_eq_error hfail
        refine ⟨_, { m with functions := (gs ++ f :: back).toArray }, ?_, rfl,
          .stopped [] ps front back rfl ?_ hfront hexpand⟩
        · rw [runPasses, Pass.onModule, hrun]
        · rw [hsplit]
          exact forall₂_chain_nil _

theorem runPasses_singleton (m : Module) (settings : Settings) (catalog : Option Inspector) :
    m.runPasses [.fileCalls settings catalog] =
      ((m.expandFiles settings catalog).1.mapError (fun e => ("io-rewrite", e)),
        (m.expandFiles settings catalog).2) := by
  rw [runPasses, expandFiles]
  rcases (Pass.fileCalls settings catalog).onModule m with ⟨e | ⟨⟩, n⟩ <;> rfl

/-! ### Names -/

/-- Made by adding functions, none of which was refused; `place` keeps the number under which
each name was added. -/
inductive Built : Module → (String → Option Nat) → Prop
  | empty (name : String) : Built { name } fun _ => none
  | add {m n : Module} {place : String → Option Nat} {f : Function} {number : Nat}
      (h : Built m place) (hadd : m.add? f = some (number, n)) :
      Built n fun name => if name = f.name then some number else place name

def names (m : Module) : List String := m.functions.toList.map Function.name

/-- The numbers are the places of the names. -/
def Places (m : Module) (place : String → Option Nat) : Prop :=
  ∀ name i, place name = some i ↔ m.names[i]? = some name

theorem getElem?_names (m : Module) (i : Nat) :
    m.names[i]? = m.functions[i]?.map Function.name := by
  simp [names]

theorem find?_eq_none_iff {name : String} : m.find? name = none ↔ name ∉ m.names := by
  simp [find?, names]

theorem name_of_find? {name : String} {f : Function} (h : m.find? name = some f) :
    f.name = name := by
  simpa using Array.find?_some h

theorem add?_eq_some_iff {f : Function} {number : Nat} :
    m.add? f = some (number, n) ↔
      f.name ∉ m.names ∧ number = m.functions.size ∧
        n = { m with functions := m.functions.push f } := by
  rw [add?, ← find?_eq_none_iff]
  cases m.find? f.name <;> simp [eq_comm]

theorem Built.push {place : String → Option Nat} (h : m.Built place) (f : Function)
    (hfresh : f.name ∉ m.names) :
    Built { m with functions := m.functions.push f } fun name =>
      if name = f.name then some m.functions.size else place name :=
  .add h (add?_eq_some_iff.mpr ⟨hfresh, rfl, rfl⟩)

theorem Built.places {place : String → Option Nat} (h : m.Built place) : m.Places place := by
  induction h with
  | empty name => simp [Places, names]
  | @add m n place f number _ hadd ih =>
      obtain ⟨hfresh, rfl, rfl⟩ := add?_eq_some_iff.mp hadd
      intro name i
      have hnames : names { m with functions := m.functions.push f } = m.names ++ [f.name] := by
        simp [names]
      have hsize : m.names.length = m.functions.size := by simp [names]
      have hold := ih name i
      rw [hnames]
      by_cases hname : name = f.name
      · -- the new name stands behind all others and nowhere else
        have hnot : m.names[i]? ≠ some name := fun hi => hfresh (hname ▸ List.mem_of_getElem? hi)
        simp only [if_pos hname]
        grind
      · simp only [if_neg hname]
        grind

theorem Places.find?_eq {place : String → Option Nat} (h : m.Places place) (name : String) :
    m.find? name = (place name).bind fun i => m.functions[i]? := by
  cases hfind : m.find? name with
  | none =>
      have hplace : place name = none := by
        refine Option.eq_none_iff_forall_ne_some.mpr fun i hi => ?_
        exact find?_eq_none_iff.mp hfind (List.mem_of_getElem? ((h name i).mp hi))
      rw [hplace]
      rfl
  | some f =>
      obtain ⟨i, hi⟩ := Array.mem_iff_getElem?.mp (Array.mem_of_find?_eq_some hfind)
      have hplace : place name = some i := by
        rw [h name i, getElem?_names, hi, Option.map_some, name_of_find? hfind]
      rw [hplace, Option.bind_some, hi]

/-- Passes over a module that was made by adding functions. The run ends in one of the two ways,
with the names as they were, and a name leads to the number under which it was added after
the run as before. Making the file calls of a module positional is the run of that one pass. -/
theorem runPasses_per_function {place : String → Option Nat} (hm : m.Built place)
    (ps : List Pass) :
    (∃ outcome n, m.runPasses ps = (outcome, n) ∧ n.name = m.name ∧
        Ended ps m.functions.toList outcome n.functions.toList ∧ n.names = m.names ∧
        ∀ name, (m.find? name = (place name).bind fun i => m.functions[i]?) ∧
          n.find? name = (place name).bind fun i => n.functions[i]?) ∧
      ∀ settings catalog, m.runPasses [.fileCalls settings catalog] =
        ((m.expandFiles settings catalog).1.mapError (fun e => ("io-rewrite", e)),
          (m.expandFiles settings catalog).2) := by
  refine ⟨?_, m.runPasses_singleton⟩
  obtain ⟨outcome, n, hrun, hname, hend⟩ := m.ended_runPasses ps
  have hnames : n.names = m.names := hend.names
  have hplaces : n.Places place := by
    rw [Places, hnames]
    exact hm.places
  exact ⟨outcome, n, hrun, hname, hend, hnames,
    fun name => ⟨hm.places.find?_eq name, hplaces.find?_eq name⟩⟩

def opensFile (name : String) : Function where
  name := name
  blocks := #[
    { body := [
        .assign ⟨0, "m", ⟨1, 1⟩⟩ (.global .h5py),
        .assign ⟨0, "open", ⟨2, 1⟩⟩ (.attr ⟨0, "m", ⟨2, 1⟩⟩ "File"),
        .assign ⟨0, "n", ⟨3, 1⟩⟩ (.const (.str "a.h5")),
        .call ⟨0, "f", ⟨4, 1⟩⟩ ⟨0, "open", ⟨4, 1⟩⟩ [⟨0, "n", ⟨4, 1⟩⟩] []]
      term := .ret none }]

def opensNothing : Function where
  name := "broken"
  blocks := #[
    { body := [
        .assign ⟨0, "m", ⟨1, 1⟩⟩ (.global .h5py),
        .assign ⟨0, "open", ⟨2, 1⟩⟩ (.attr ⟨0, "m", ⟨2, 1⟩⟩ "File"),
        .call ⟨0, "f", ⟨3, 1⟩⟩ ⟨0, "open", ⟨3, 1⟩⟩ [] []]
      term := .ret none }]

def mixed : Module where
  name := "mixed"
  functions := #[opensFile "first", opensNothing, opensFile "last"]

def mixedPlace (name : String) : Option Nat :=
  if name = "last" then some 2
  else if name = "broken" then some 1
  else if name = "first" then some 0
  else none

theorem mixed_built : mixed.Built mixedPlace :=
  (((Built.empty "mixed").push (opensFile "first") (by decide)).push opensNothing (by decide)).push
    (opensFile "last") (by decide)

/-- The body of the first function when its file calls are positional. -/
def firstExpanded : List Stmt :=
  .assign ⟨0, "n", ⟨3, 1⟩⟩ (.const (.str "a.h5")) ::
    Expand.openCode ((opensFile "first").fileScope none) ⟨0, "f", ⟨4, 1⟩⟩ ⟨0, "n", ⟨4, 1⟩⟩ 0 none

def nameMissing : Stop FileError := .failed ⟨"broken", ⟨3, 1⟩, .missingArgument "File" "name"⟩

/-- The pass has made the calls of the first function positional, fails on the second and does
not get to the third, which is still found. -/
theorem mixed_stops :
    mixed.Built mixedPlace ∧ ∃ g,
      mixed.runPasses [.fileCalls {} none, .deadCode] =
        (.error ("io-rewrite", nameMissing), ⟨"mixed", #[g, opensNothing, opensFile "last"]⟩) ∧
      Ended [.fileCalls {} none, .deadCode] mixed.functions.toList
        (.error ("io-rewrite", nameMissing)) [g, opensNothing, opensFile "last"] ∧
      g.blocks = #[{ body := firstExpanded, term := .ret none }] ∧
      find? ⟨"mixed", #[g, opensNothing, opensFile "last"]⟩ "last" = some (opensFile "last") := by
  obtain ⟨g, hg, hblocks, -⟩ : ∃ g, (opensFile "first").expandFiles none = .ok g ∧
      g.blocks = #[{ body := firstExpanded, term := .ret none }] ∧ g.params = [] ∧ g.entry = 0 :=
    Function.exists_expandFiles_blocks 10 #[{
      body := .assign ⟨0, "m", ⟨1, 1⟩⟩ (.global .h5py) ::
        .assign ⟨0, "open", ⟨2, 1⟩⟩ (.attr ⟨0, "m", ⟨2, 1⟩⟩ "File") :: firstExpanded
      term := .ret none }] (Function.order_eq_singleton rfl) (by decide +kernel) (by decide +kernel)
  have he : opensNothing.expandFiles none = .error nameMissing :=
    Function.expandFiles_eq_error (Function.order_eq_singleton rfl) (by decide +kernel)
  have hrun : mixed.runPasses [.fileCalls {} none, .deadCode] =
      (.error ("io-rewrite", nameMissing), ⟨"mixed", #[g, opensNothing, opensFile "last"]⟩) := by
    simp [runPasses, Pass.onModule, mixed, Pass.onFunctions, Pass.onFunction, hg, he, Pass.name]
  obtain ⟨⟨outcome, n, hends, -, hend, -, hfind⟩, -⟩ :=
    runPasses_per_function mixed_built [.fileCalls {} none, .deadCode]
  cases hrun.symm.trans hends
  exact ⟨mixed_built, g, hrun, hend, hblocks, (hfind "last").2⟩

end Module

end SpmdArrays
