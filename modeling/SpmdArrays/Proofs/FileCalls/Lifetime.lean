import Mathlib.Data.List.Perm.Subperm
import SpmdArrays.FileCalls.Pipeline
import SpmdArrays.Proofs.FileCalls.DeadCode
import SpmdArrays.Proofs.FileCalls.SingleAssignment

/-!
The life of a function. Temporaries are asked for and passes are run, in any order, and
every name that is handed out on the way carries the next number of one counter. The
number can be read off the name whatever the stem is, so no two of the names are the same.
A pass that makes file calls positional takes its names before it is known whether it will
succeed. If it fails, function and counter are those from before the pass, so the names it
took belong to nobody and are handed out again.
-/

namespace SpmdArrays

/-! ### Names by number -/

/-- The names of temporaries under some stems, one for each number that a counter goes
through. -/
def Numbered (lo hi : Nat) (names : List String) : Prop :=
  ∃ stems : List String, hi = lo + stems.length ∧ names.Perm (tempNames (stems.zipIdx lo))

namespace Numbered

variable {lo mid hi : Nat} {xs ys : List String}

theorem nil (n : Nat) : Numbered n n [] := ⟨[], rfl, .refl _⟩

theorem append (h : Numbered lo mid xs) (h' : Numbered mid hi ys) : Numbered lo hi (xs ++ ys) := by
  obtain ⟨stems, rfl, hxs⟩ := h
  obtain ⟨stems', rfl, hys⟩ := h'
  refine ⟨stems ++ stems', by rw [List.length_append, Nat.add_assoc], ?_⟩
  rw [List.zipIdx_append, tempNames_append]
  exact hxs.append hys

theorem nodup (h : Numbered lo hi xs) : xs.Nodup := by
  obtain ⟨stems, -, hxs⟩ := h
  rw [hxs.nodup_iff]
  apply nodup_tempNames
  rw [List.zipIdx_map_snd]
  exact List.nodup_range'

theorem counter_eq (h : Numbered lo hi xs) : hi = lo + xs.length := by
  obtain ⟨stems, rfl, hxs⟩ := h
  rw [hxs.length_eq, tempNames, List.length_map, List.length_zipIdx]

theorem of_perm {ts : List (String × Nat)} (hxs : xs.Perm (tempNames ts))
    (hnumbers : (ts.map Prod.snd).Perm (List.range' lo ts.length)) :
    Numbered lo (lo + ts.length) xs := by
  -- the same temporaries in the order of their numbers
  obtain ⟨us, hus, hperm⟩ : ∃ us : List (String × Nat),
      List.range' lo ts.length = us.map Prod.snd ∧ us.Perm ts :=
    (congrFun₂ (List.eq_map_comp_perm Prod.snd) _ ts).mpr hnumbers.symm
  have hlength : (us.map Prod.fst).length = ts.length := by
    rw [List.length_map, hperm.length_eq]
  have hzip : us = (us.map Prod.fst).zipIdx lo := by
    rw [List.zipIdx_eq_zip_range', hlength, hus]
    exact List.zip_of_prod rfl rfl
  refine ⟨us.map Prod.fst, by rw [hlength], ?_⟩
  rw [← hzip]
  exact hxs.trans (hperm.symm.map _)

end Numbered

def assignedIn (bs : Array Block) : List String :=
  bs.toList.flatMap fun b => definedNames b.body

/-- While a counter goes from one number to another the given names are taken. Afterwards
nothing is assigned but what was assigned before, as often as it was, and each of these names
once. -/
structure Supplied (lo hi : Nat) (before after taken : List String) : Prop where
  numbered : Numbered lo hi taken
  assigned : after.Subperm (before ++ taken)

namespace Supplied

variable {lo mid hi : Nat} {xs xs' ys ys' zs ts ts' : List String}

theorem of_sublist (n : Nat) (h : ys.Sublist xs) : Supplied n n xs ys [] :=
  ⟨.nil n, by rw [List.append_nil]; exact h.subperm⟩

theorem trans (h : Supplied lo mid xs ys ts) (h' : Supplied mid hi ys zs ts') :
    Supplied lo hi xs zs (ts ++ ts') := by
  refine ⟨h.numbered.append h'.numbered, h'.assigned.trans ?_⟩
  rw [← List.append_assoc]
  exact (List.subperm_append_right _).mpr h.assigned

theorem append (h : Supplied lo mid xs ys ts) (h' : Supplied mid hi xs' ys' ts') :
    Supplied lo hi (xs ++ xs') (ys ++ ys') (ts ++ ts') := by
  have hright : (ys ++ xs').Subperm ((xs ++ xs') ++ ts) := by
    refine ((List.subperm_append_right xs').mpr h.assigned).trans ?_
    rw [List.append_assoc, List.append_assoc]
    exact (List.perm_append_comm.append_left xs).subperm
  have hleft : (ys ++ ys').Subperm ((ys ++ xs') ++ ts') := by
    rw [List.append_assoc]
    exact (List.subperm_append_left ys).mpr h'.assigned
  exact trans ⟨h.numbered, hright⟩ ⟨h'.numbered, hleft⟩

theorem congr (h : Supplied lo hi xs ys ts) (hxs : xs.Perm xs') (hys : ys.Perm ys') :
    Supplied lo hi xs' ys' ts :=
  ⟨h.numbered, hys.symm.subperm.trans (h.assigned.trans (hxs.append_right ts).subperm)⟩

theorem setBlock {bs : Array Block} {l : Label} {b b' : Block} (hb : bs[l]? = some b)
    (h : Supplied lo hi (definedNames b.body) (definedNames b'.body) ts) :
    Supplied lo hi (assignedIn bs) (assignedIn (bs.setIfInBounds l b')) ts := by
  obtain ⟨hlt, rfl⟩ := Array.getElem?_eq_some_iff.mp hb
  have hlt' : l < bs.toList.length := by simpa using hlt
  let names (b : Block) : List String := definedNames b.body
  -- the other blocks stand behind this one, before and after
  have hold : (names bs[l] ++ (bs.toList.eraseIdx l).flatMap names).Perm (assignedIn bs) := by
    simpa [assignedIn] using (List.getElem_cons_eraseIdx_perm hlt').flatMap_right names
  have hnew : (assignedIn (bs.setIfInBounds l b')).Perm
      (names b' ++ (bs.toList.eraseIdx l).flatMap names) := by
    simpa [assignedIn] using (List.set_perm_cons_eraseIdx hlt' b').flatMap_right names
  have hall := h.append (.of_sublist hi (.refl ((bs.toList.eraseIdx l).flatMap names)))
  rw [List.append_nil] at hall
  exact hall.congr hold hnew.symm

end Supplied

namespace Expand

/-! ### What a pass takes -/

/-- The names that what stands for a statement assigns beside the name that the statement
assigned. -/
def newNames (s : Stmt) (out : List Stmt) : List String :=
  (definedNames out).diff (definedNames [s])

/-- The names that are taken for statements, up to the first one that fails. -/
def takenBy (c : FileScope) : List Stmt → Expansion → List String
  | [], _ => []
  | s :: ss, st =>
    match stmt c s st with
    | .error _ => []
    | .ok (out, st') => newNames s out ++ takenBy c ss st'

def takenOver (c : FileScope) : List Label → Array Block → Expansion → List String
  | [], _, _ => []
  | l :: ls, bs, st =>
    match bs[l]? with
    | none => takenOver c ls bs st
    | some b =>
      takenBy c b.body { st with facts := st.facts.noteCopies b.body } ++
        match block c b st with
        | .error _ => []
        | .ok (b', st') => takenOver c ls (bs.setIfInBounds l b') st'

variable {c : FileScope} {st st' : Expansion} {s : Stmt} {out : List Stmt}

theorem Expands.supplied (h : Expands c st s out st') :
    Supplied st.nextTemp st'.nextTemp (definedNames [s]) (definedNames out) (newNames s out) := by
  obtain ⟨ps, qs, htemps, hnames⟩ := h.exists_temps
  have hsplit : (definedNames out).Perm (definedNames [s] ++ tempNames (ps ++ qs)) := by
    rw [hnames, tempNames_append, definedNames_cons, definedNames_nil, List.append_nil,
      ← List.append_assoc]
    exact List.perm_append_comm.append_right _
  have hnew : (newNames s out).Perm (tempNames (ps ++ qs)) := by
    refine (hsplit.diff_right _).trans (.of_eq ?_)
    rw [definedNames_cons]
    cases s.target? <;> simp
  refine ⟨?_, ?_⟩
  · rw [htemps.nextTemp]
    exact .of_perm hnew htemps.numbers
  · exact (hsplit.trans (hnew.symm.append_left _)).subperm

theorem takenBy_supplied (c : FileScope) (ss : List Stmt) (st : Expansion) :
    ∃ hi, Numbered st.nextTemp hi (takenBy c ss st) ∧
      ∀ {out st'}, stmts c ss st = .ok (out, st') →
        Supplied st.nextTemp st'.nextTemp (definedNames ss) (definedNames out)
          (takenBy c ss st) := by
  induction ss generalizing st with
  | nil =>
      refine ⟨st.nextTemp, .nil _, fun h => ?_⟩
      cases h
      exact .of_sublist _ (.refl _)
  | cons s ss ih =>
      rw [takenBy]
      rcases hs : stmt c s st with e | ⟨out₁, st₁⟩
      · refine ⟨st.nextTemp, .nil _, fun h => ?_⟩
        obtain ⟨_, _, _, hs', -⟩ := stmts_cons_ok h
        cases hs.symm.trans hs'
      · have hfirst := (expands_of_stmt hs).supplied
        obtain ⟨hi, hrest, hok⟩ := ih st₁
        refine ⟨hi, hfirst.numbered.append hrest, fun h => ?_⟩
        obtain ⟨_, _, out₂, hs', hss, rfl⟩ := stmts_cons_ok h
        cases hs.symm.trans hs'
        rw [definedNames_append, ← List.singleton_append, definedNames_append]
        exact hfirst.append (hok hss)

theorem takenOver_supplied (c : FileScope) (ls : List Label) (bs : Array Block) (st : Expansion) :
    ∃ hi, Numbered st.nextTemp hi (takenOver c ls bs st) ∧
      ∀ {bs' st'}, blocks c bs ls st = .ok (bs', st') →
        Supplied st.nextTemp st'.nextTemp (assignedIn bs) (assignedIn bs')
          (takenOver c ls bs st) := by
  induction ls generalizing bs st with
  | nil =>
      refine ⟨st.nextTemp, .nil _, fun h => ?_⟩
      cases h
      exact .of_sublist _ (.refl _)
  | cons l ls ih =>
      rw [takenOver, blocks]
      cases hb : bs[l]? with
      | none => exact ih bs st
      | some b =>
          dsimp only
          obtain ⟨hi, hbody, hok⟩ :=
            takenBy_supplied c b.body { st with facts := st.facts.noteCopies b.body }
          rcases hblock : block c b st with e | ⟨b', st₁⟩
          · refine ⟨hi, by simpa using hbody, fun h => ?_⟩
            obtain ⟨_, _, hblock', -⟩ := bind_eq_ok h
            cases hblock.symm.trans hblock'
          · obtain ⟨out, hout, rfl⟩ := block_ok hblock
            have hfirst :
                Supplied _ _ _ (assignedIn (bs.setIfInBounds l { b with body := out })) _ :=
              .setBlock hb (hok hout)
            obtain ⟨hi', hrest, hok'⟩ := ih (bs.setIfInBounds l { b with body := out }) st₁
            refine ⟨hi', hfirst.numbered.append hrest, fun h => ?_⟩
            obtain ⟨_, _, hblock', hblocks⟩ := bind_eq_ok h
            cases hblock.symm.trans hblock'
            exact hfirst.trans (hok' hblocks)

end Expand

namespace Function

/-- The names that are taken while the file calls of a function are made positional, up to
the statement that fails. -/
def takenNames (f : Function) (catalog : Option Inspector) : List String :=
  Expand.takenOver (f.fileScope catalog) f.order f.blocks { nextTemp := f.nextTemp }

theorem supplied_withoutDead (f : Function) :
    Supplied f.nextTemp f.withoutDead.nextTemp (definedNames f.stmts)
      (definedNames f.withoutDead.stmts) [] := by
  rw [stmts_withoutDead]
  exact .of_sublist _ (definedNames_filter_sublist _ _)

theorem supplied_expandFiles {f g : Function} {catalog : Option Inspector}
    (h : f.expandFiles catalog = .ok g) :
    Supplied f.nextTemp g.nextTemp (definedNames f.stmts) (definedNames g.stmts)
      (f.takenNames catalog) := by
  obtain ⟨bs, st, hbs, rfl⟩ := expandFiles_ok h
  obtain ⟨-, -, hok⟩ := Expand.takenOver_supplied (f.fileScope catalog) f.order f.blocks
    { nextTemp := f.nextTemp }
  have hblocks := hok hbs
  rw [assignedIn, assignedIn, ← definedNames_stmts] at hblocks
  have hdead := supplied_withoutDead { f with blocks := bs, nextTemp := st.nextTemp }
  rw [definedNames_stmts] at hdead
  have hall := hblocks.trans hdead
  rwa [List.append_nil] at hall

end Function

namespace Pass

def taken : Pass → Function → List String
  | .deadCode, _ => []
  | .fileCalls settings catalog, f =>
    f.takenNames (if settings.staticIntrospection then catalog else none)

theorem numbered_taken (p : Pass) (f : Function) : ∃ hi, Numbered f.nextTemp hi (p.taken f) := by
  cases p with
  | deadCode => exact ⟨_, .nil _⟩
  | fileCalls settings catalog =>
      obtain ⟨hi, hnumbered, -⟩ := Expand.takenOver_supplied (f.fileScope _) f.order f.blocks
        { nextTemp := f.nextTemp }
      exact ⟨hi, hnumbered⟩

theorem supplied_of_ok {p : Pass} {f g : Function} (h : p.onFunction f = .ok g) :
    Supplied f.nextTemp g.nextTemp (definedNames f.stmts) (definedNames g.stmts) (p.taken f) := by
  cases p with
  | deadCode =>
      cases h
      exact f.supplied_withoutDead
  | fileCalls settings catalog => exact Function.supplied_expandFiles h

theorem onFunctions_singleton_ok {p : Pass} {f g : Function} (h : p.onFunction f = .ok g) :
    p.onFunctions [f] = (.ok (), [g]) := by
  simp [onFunctions, h]

theorem onFunctions_singleton_error {p : Pass} {f : Function} {e : Stop FileError}
    (h : p.onFunction f = .error e) : p.onFunctions [f] = (.error e, [f]) := by
  simp [onFunctions, h]

end Pass

namespace Function

/-! ### Acts -/

inductive Act where
  | fresh (stem : String) (loc : Loc)
  | pass (p : Pass)

/-- The function after an act. A pass is run over this function alone. -/
def after (f : Function) : Act → Function
  | .fresh stem loc => (f.fresh stem loc).2
  | .pass p => (p.onFunctions [f]).2.headD f

/-- The names that an act hands out for good. What a failed pass has taken is not among
them. -/
def handsOut (f : Function) : Act → List String
  | .fresh stem loc => [(f.fresh stem loc).1.name]
  | .pass p => if (p.onFunctions [f]).1.isOk then p.taken f else []

def afterAll (f : Function) (acts : List Act) : Function := acts.foldl after f

def handedOut (f : Function) : List Act → List String
  | [] => []
  | a :: acts => f.handsOut a ++ (f.after a).handedOut acts

variable {f : Function} {p : Pass} {e : Stop FileError}

/-- A failed pass leaves the function and hands out nothing. -/
theorem after_of_error (h : p.onFunction f = .error e) :
    f.after (.pass p) = f ∧ f.handsOut (.pass p) = [] := by
  simp [after, handsOut, Pass.onFunctions_singleton_error h, Except.isOk, Except.toBool]

theorem supplied_after (f : Function) (a : Act) :
    Supplied f.nextTemp (f.after a).nextTemp (definedNames f.stmts)
      (definedNames (f.after a).stmts) (f.handsOut a) := by
  cases a with
  | fresh stem loc => exact ⟨⟨[stem], rfl, .refl _⟩, (List.sublist_append_left _ _).subperm⟩
  | pass p =>
      cases hp : p.onFunction f with
      | error e =>
          obtain ⟨hafter, hnone⟩ := after_of_error hp
          rw [hafter, hnone]
          exact .of_sublist _ (.refl _)
      | ok g =>
          have hafter : f.after (.pass p) = g := by
            simp [after, Pass.onFunctions_singleton_ok hp]
          have hsome : f.handsOut (.pass p) = p.taken f := by
            simp [handsOut, Pass.onFunctions_singleton_ok hp, Except.isOk, Except.toBool]
          rw [hafter, hsome]
          exact Pass.supplied_of_ok hp

theorem supplied_afterAll (f : Function) (acts : List Act) :
    Supplied f.nextTemp (f.afterAll acts).nextTemp (definedNames f.stmts)
      (definedNames (f.afterAll acts).stmts) (f.handedOut acts) := by
  induction acts generalizing f with
  | nil => exact .of_sublist _ (.refl _)
  | cons a acts ih => exact (f.supplied_after a).trans (ih (f.after a))

theorem handedOut_append (f : Function) (acts later : List Act) :
    f.handedOut (acts ++ later) = f.handedOut acts ++ (f.afterAll acts).handedOut later := by
  induction acts generalizing f with
  | nil => rfl
  | cons a acts ih =>
      rw [List.cons_append, handedOut, handedOut, ih, List.append_assoc]
      rfl

theorem handedOut_fresh (f : Function) (stems : List String) (loc : Loc) :
    f.handedOut (stems.map (.fresh · loc)) = tempNames (stems.zipIdx f.nextTemp) := by
  induction stems generalizing f with
  | nil => rfl
  | cons stem stems ih =>
      rw [List.map_cons, handedOut, ih]
      rfl

/-- A pass leaves nothing behind when it is run after some acts. -/
structure Undone (f : Function) (acts : List Act) (p : Pass) : Prop where
  /-- Counter and body are those from before the pass. -/
  restored : f.afterAll (acts ++ [.pass p]) = f.afterAll acts
  /-- Whatever is done later, the names are those that would have been handed out without
  the pass. -/
  forgotten : ∀ later, f.handedOut (acts ++ .pass p :: later) = f.handedOut (acts ++ later)
  /-- The names that the pass has taken are nobody's. -/
  unused : ∀ x ∈ p.taken (f.afterAll acts), x ∉ f.handedOut acts
  /-- They can all be handed out again. -/
  reusable : ∃ stems : List String, ∀ loc,
    (f.handedOut (acts ++ .pass p :: stems.map (.fresh · loc))).Perm
      (f.handedOut acts ++ p.taken (f.afterAll acts))

theorem undone_of_error {acts : List Act} (h : p.onFunction (f.afterAll acts) = .error e) :
    f.Undone acts p := by
  obtain ⟨hafter, hnone⟩ := after_of_error h
  have hlater : ∀ later, f.handedOut (acts ++ .pass p :: later) =
      f.handedOut acts ++ (f.afterAll acts).handedOut later := by
    intro later
    rw [handedOut_append, handedOut, hnone, hafter, List.nil_append]
  obtain ⟨hi, htaken⟩ := p.numbered_taken (f.afterAll acts)
  have hdistinct := ((f.supplied_afterAll acts).numbered.append htaken).nodup
  obtain ⟨stems, -, hstems⟩ := htaken
  refine ⟨?_, fun later => ?_, fun x hx hx' => ?_, stems, fun loc => ?_⟩
  · rw [afterAll, List.foldl_append]
    exact hafter
  · rw [hlater, handedOut_append]
  · exact (List.nodup_append.mp hdistinct).2.2 x hx' x hx rfl
  · rw [hlater, handedOut_fresh]
    exact hstems.symm.append_left _

/-- For any function and whatever is done with it, no name is handed out twice. There is one
name for each number that the counter has gone through, so from zero on a counter of 32 bits
has room for 2^32 - 1 of them, and the function assigns nothing but these and what it assigned
at first. A pass that fails, at whatever time, is as good as not run: the names it has taken
were not handed out before it and can all be handed out after it. -/
theorem temporaries_distinct (f : Function) (acts : List Act) :
    (f.handedOut acts).Nodup ∧
      (f.afterAll acts).nextTemp = f.nextTemp + (f.handedOut acts).length ∧
      Supplied f.nextTemp (f.afterAll acts).nextTemp (definedNames f.stmts)
        (definedNames (f.afterAll acts).stmts) (f.handedOut acts) ∧
      ∀ p e, p.onFunction (f.afterAll acts) = .error e → f.Undone acts p := by
  have hall := f.supplied_afterAll acts
  exact ⟨hall.numbered.nodup, hall.numbered.counter_eq, hall, fun p e h => undone_of_error h⟩

/-- Opens one file, and then another without saying which. -/
def opensTwice : Function where
  name := "main"
  blocks := #[
    { body := [
        .assign ⟨0, "m", ⟨1, 1⟩⟩ (.global .h5py),
        .assign ⟨0, "open", ⟨2, 1⟩⟩ (.attr ⟨0, "m", ⟨2, 1⟩⟩ "File"),
        .assign ⟨0, "n", ⟨3, 1⟩⟩ (.const (.str "a.h5")),
        .call ⟨0, "f", ⟨4, 1⟩⟩ ⟨0, "open", ⟨4, 1⟩⟩ [⟨0, "n", ⟨4, 1⟩⟩] [],
        .call ⟨0, "g", ⟨5, 1⟩⟩ ⟨0, "open", ⟨5, 1⟩⟩ [] []]
      term := .ret none }]

/-- Two temporaries are asked for before a pass that takes four and fails, and one after it. -/
theorem opensTwice_names_again :
    let acts : List Act := [.fresh "open.5" ⟨6, 1⟩, .fresh "$open.5." ⟨7, 1⟩]
    let p : Pass := .fileCalls {} none
    (∃ e, p.onFunction (opensTwice.afterAll acts) = .error e) ∧
      p.taken (opensTwice.afterAll acts) =
        ["$const_mode.2", "$const_parallel.3", "$io_abi.4", "$open.5"] ∧
      opensTwice.Undone acts p ∧
      opensTwice.handedOut (acts ++ [.pass p, .fresh "const_mode" ⟨8, 1⟩]) =
        ["$open.5.0", "$$open.5..1", "$const_mode.2"] := by
  intro acts p
  have horder : (opensTwice.afterAll acts).order = [0] := order_eq_singleton rfl
  have he : p.onFunction (opensTwice.afterAll acts) =
      .error (.failed ⟨"main", ⟨5, 1⟩, .missingArgument "File" "name"⟩) :=
    expandFiles_eq_error horder (by decide +kernel)
  have hundone := (opensTwice.temporaries_distinct acts).2.2.2 p _ he
  refine ⟨⟨_, he⟩, ?_, hundone, ?_⟩
  · rw [Pass.taken, takenNames, horder]
    decide +kernel
  · rw [hundone.forgotten]
    decide +kernel

end Function

end SpmdArrays
