import SpmdArrays.Proofs.FileCalls.EmittedCalls
import SpmdArrays.Proofs.FileCalls.Places

/-!
Making file calls positional keeps the order of effects. What a statement has to do with
the world outside can be told from what is known at its place: a file operation is a call
of an entry point, a read asks for all extents first, and calls and stores that are not
recognised stand for themselves. The effects of a block afterwards are those of its
statements, one statement after the other, with none left out, added or moved; everything
else in the block is a statement that was there before or one that assigns a temporary or
a buffer for a read.
-/

namespace SpmdArrays

/-- What is to be done outside. -/
inductive Effect where
  /-- What the statement does as it is written. -/
  | own (s : Stmt)
  /-- A call of an entry point, with the variables that it is given and perhaps the one
  that takes its result. -/
  | put (e : EntryPoint) (result : Option Var) (given : List Var)
  deriving DecidableEq

/-- The effects of a statement, from what is known at its place. -/
def FileScope.effects (c : FileScope) (facts : Facts) : Stmt → List Effect
  | .assign t (.constItem base _ _) =>
    match (facts.about base.name).file, (facts.about base.name).dataset with
    | none, some d =>
      match c.resolve facts t d with
      | .ok type =>
        List.replicate type.rank (.put .size none [d.file, d.name]) ++
          [.put .read none [d.file, d.name, t]]
      | .error _ => []
    | _, _ => []
  | .assign _ _ => []
  | .call t callee args kws =>
    let k := facts.about callee.name
    let name := args[0]? <|> kws.lookup "name"
    if k.opensFiles then
      [.put .openFile (some t) (name.toList ++ (args[1]? <|> kws.lookup "mode").toList)]
    else
      match k.closes, k.makesDataset, k.makesGroup with
      | some file, _, _ => [.put .closeFile (some t) [file]]
      | none, some file, _ =>
        [.put .createDataset (some t) (file :: (name.toList ++
          (args[1]? <|> kws.lookup "shape").toList ++ (kws.lookup "dtype" <|> args[2]?).toList))]
      | none, none, some file => [.put .createGroup (some t) (file :: name.toList)]
      | none, none, none => [.own (.call t callee args kws)]
  | .store t index value =>
    match (facts.about t.name).dataset with
    | some d => [.put .write none [d.file, d.name, value]]
    | none => [.own (.store t index value)]

/-- The effects of the statements of a block behind those in front, one after the other. -/
def Function.effectsAt (f : Function) (catalog : Option Inspector) (l : Label) :
    List Stmt → List Stmt → List Effect
  | _, [] => []
  | front, s :: rest =>
    (f.fileScope catalog).effects (f.factsAt catalog l front) s ++
      f.effectsAt catalog l (front ++ [s]) rest

namespace Expand

/-! ### How a row is made up -/

/-- The row behind the statements in front is made up of the statements that stay, of
assignments to temporaries, of buffers and of the effects, each of them in order. -/
inductive MadeUp (n : Nat) : List Stmt → List Stmt → List Stmt → List Effect → Prop
  | nil {front : List Stmt} : MadeUp n front [] [] []
  | stays {front row kept : List Stmt} {effects : List Effect} {s : Stmt}
      (hs : s.hasEffect = false) (h : MadeUp n (front ++ [s]) row kept effects) :
      MadeUp n front (s :: row) (s :: kept) effects
  | temp {front row kept : List Stmt} {effects : List Effect} {t : Var} {value : Expr}
      (ht : GeneratedFrom n t.name)
      (h : MadeUp n (front ++ [.assign t value]) row kept effects) :
      MadeUp n front (.assign t value :: row) kept effects
  /-- The next effect is the read that the buffer is for. -/
  | buffer {front row kept : List Stmt} {effects : List Effect} {file name t : Var}
      {vars : List Var} {elem : ElementType}
      (h : MadeUp n (front ++ [.assign t (.alloc vars elem)]) row kept
        (.put .read none [file, name, t] :: effects)) :
      MadeUp n front (.assign t (.alloc vars elem) :: row) kept
        (.put .read none [file, name, t] :: effects)
  | own {front row kept : List Stmt} {effects : List Effect} {s : Stmt} (hs : s.hasEffect = true)
      (h : MadeUp n (front ++ [s]) row kept effects) :
      MadeUp n front (s :: row) kept (.own s :: effects)
  /-- The entry point was loaded in front, and takes that many arguments. -/
  | put {front row kept : List Stmt} {effects : List Effect} {t callee table : Var}
      {args given : List Var} {e : EntryPoint} {result : Option Var}
      (hload : LoadsEntry front callee table e) (harity : args.length = e.arity)
      (hresult : ∀ v, result = some v → t = v) (hgiven : given.Sublist args)
      (h : MadeUp n (front ++ [.call t callee args []]) row kept effects) :
      MadeUp n front (.call t callee args [] :: row) kept (.put e result given :: effects)

section

variable {n k : Nat} {front a b ka kb : List Stmt} {xs ys : List Effect}

theorem MadeUp.append (ha : MadeUp n front a ka xs) (hb : MadeUp n (front ++ a) b kb ys) :
    MadeUp n front (a ++ b) (ka ++ kb) (xs ++ ys) := by
  induction ha with
  | nil => simpa using hb
  | stays hs _ ih => exact .stays hs (ih (by simpa using hb))
  | temp ht _ ih => exact .temp ht (ih (by simpa using hb))
  | buffer _ ih => exact .buffer (ih (by simpa using hb))
  | own hs _ ih => exact .own hs (ih (by simpa using hb))
  | put hload harity hresult hgiven _ ih =>
      exact .put hload harity hresult hgiven (ih (by simpa using hb))

theorem madeUp_temps {row : List Stmt}
    (h : ∀ s ∈ row, ∃ t value, s = .assign t value ∧ GeneratedFrom n t.name) (front : List Stmt) :
    MadeUp n front row [] [] := by
  induction row generalizing front with
  | nil => exact .nil
  | cons s row ih =>
      obtain ⟨t, value, rfl, ht⟩ := h s (List.mem_cons_self ..)
      exact .temp ht (ih (fun u hu => h u (List.mem_cons_of_mem _ hu)) _)

theorem madeUp_stays {s : Stmt} (hs : s.hasEffect = false) (front : List Stmt) :
    MadeUp n front [s] [s] [] :=
  .stays hs .nil

theorem madeUp_own {s : Stmt} (hs : s.hasEffect = true) (front : List Stmt) :
    MadeUp n front [s] [] [.own s] :=
  .own hs .nil

theorem madeUp_loadCode {c : FileScope} {e : EntryPoint} {loc : Loc} (hle : n ≤ k)
    (front : List Stmt) : MadeUp n front (loadCode c e loc k) [] [] := by
  refine madeUp_temps (fun s hs => ?_) front
  simp only [loadCode, List.mem_cons, List.not_mem_nil, or_false] at hs
  rcases hs with rfl | rfl
  · exact ⟨_, _, rfl, generatedFrom_temp _ _ _ hle⟩
  · exact ⟨_, _, rfl, generatedFrom_temp _ _ _ (by omega)⟩

theorem madeUp_callCode {c : FileScope} {e : EntryPoint} {args given : List Var} {t : Var}
    {result : Option Var} (hle : n ≤ k) (harity : args.length = e.arity)
    (hresult : ∀ v, result = some v → t = v) (hgiven : given.Sublist args) (front : List Stmt) :
    MadeUp n front (callCode c e args t k) [] [.put e result given] :=
  (madeUp_loadCode hle front).append
    (.put (loadsEntry_loadCode c e t.loc k front) harity hresult hgiven .nil)

theorem madeUp_transferCode {c : FileScope} {e : EntryPoint} {d : DatasetRef} {rank : Nat}
    {counts : Expr} {buffer : Var} {loc : Loc} (hle : n ≤ k) (harity : e.arity = 7)
    (front : List Stmt) :
    MadeUp n front (transferCode c e d rank counts buffer loc k) []
      [.put e none [d.file, d.name, buffer]] := by
  have hcall : ∀ pre, MadeUp n pre (callCode c e [d.file, d.name, Expand.temp c "h5_ndims" loc k,
      Expand.temp c "h5_starts" loc (k + 2), Expand.temp c "h5_counts" loc (k + 3),
      Expand.temp c "const_zero" loc (k + 1), buffer] (Expand.temp c "h5_err" loc (k + 4)) (k + 5))
      [] [.put e none [d.file, d.name, buffer]] :=
    madeUp_callCode (by omega) (by simp [harity]) (by simp) (by simp)
  refine (madeUp_temps (fun s hs => ?_) front).append (hcall _)
  simp only [intConst, List.mem_cons, List.not_mem_nil, or_false] at hs
  rcases hs with rfl | rfl | rfl | rfl <;> exact ⟨_, _, rfl, generatedFrom_temp _ _ _ (by omega)⟩

/-- One call for each dimension; the entry point stays loaded all along. -/
theorem madeUp_extentCode {c : FileScope} {d : DatasetRef} {loc : Loc} {table : Var} {j : Nat}
    (dims : List Nat) (hle : n ≤ k) (hj : j + 1 < k)
    (hload : LoadsEntry front (entryVar c .size loc j) table .size) :
    MadeUp n front (extentCode c (entryVar c .size loc j) d loc dims k) []
      (List.replicate dims.length (.put .size none [d.file, d.name])) := by
  induction dims generalizing front k with
  | nil => exact .nil
  | cons dim dims ih =>
      have hne : ∀ (stem : String) (i : Nat), k ≤ i →
          (entryVar c .size loc j).name ≠ Var.tempName stem i := by
        intro stem i hi heq
        have := (Var.tempName_inj heq).2
        omega
      have hload₁ : LoadsEntry (front ++ [intConst (Expand.temp c "h5_dim" loc k) dim])
          (entryVar c .size loc j) table .size := by
        refine hload.append_of_not_mem ?_
        simpa [definedNames, intConst, Stmt.target?] using hne "h5_dim" k (Nat.le_refl k)
      refine .temp (generatedFrom_temp _ _ _ hle) (.put hload₁ rfl (by simp) (by simp)
        (ih (by omega) (by omega) (hload₁.append_of_not_mem ?_)))
      simpa [definedNames, Stmt.target?] using hne "h5_size" (k + 1) (by omega)

theorem madeUp_readCode {c : FileScope} {t : Var} {d : DatasetRef} {type : ArrayType}
    (hle : n ≤ k) (front : List Stmt) :
    MadeUp n front (readCode c t d type k) []
      (List.replicate type.rank (.put .size none [d.file, d.name]) ++
        [.put .read none [d.file, d.name, t]]) := by
  have hsizes := madeUp_extentCode (d := d) (List.range type.rank) (show n ≤ k + 2 by omega)
    (Nat.lt_succ_self (k + 1)) (loadsEntry_loadCode c .size t.loc k front)
  rw [List.length_range] at hsizes
  rw [readCode, List.append_assoc, List.append_assoc]
  refine (madeUp_loadCode hle front).append (hsizes.append ?_)
  exact .buffer (madeUp_transferCode (by omega) rfl _)

theorem madeUp_openCode {c : FileScope} {t name : Var} (mode : Option Var) (hle : n ≤ k)
    (front : List Stmt) :
    MadeUp n front (openCode c t name k mode) []
      [.put .openFile (some t) (name :: mode.toList)] := by
  cases mode with
  | some mode =>
      exact .temp (generatedFrom_temp _ _ _ hle)
        (madeUp_callCode (by omega) rfl (by simp) (by simp) _)
  | none =>
      exact .temp (generatedFrom_temp _ _ _ hle) (.temp (generatedFrom_temp _ _ _ (by omega))
        (madeUp_callCode (by omega) rfl (by simp) (by simp) _))

theorem madeUp_createDatasetCode {c : FileScope} {t file name shape elem : Var} {rank : Nat}
    (hle : n ≤ k) (front : List Stmt) :
    MadeUp n front (createDatasetCode c t file name shape elem rank k) []
      [.put .createDataset (some t) [file, name, shape, elem]] := by
  exact .temp (generatedFrom_temp _ _ _ hle)
    (madeUp_callCode (by omega) rfl (by simp) (by simp) _)

end

/-! ### One statement, and what stays of it -/

variable {n : Nat} {c : FileScope} {st st' : Expansion} {s : Stmt} {out : List Stmt}

/-- What stands for a statement has the effects of the statement. A statement without an
effect stays or is gone. -/
theorem Expands.madeUp (h : Expands c st s out st') (hle : n ≤ st.nextTemp) (front : List Stmt) :
    ∃ kept, kept.Sublist ([s].filter fun u => !u.hasEffect) ∧
      MadeUp n front out kept (c.effects st.facts s) := by
  cases h with
  | datasetVar t base v index hf =>
      obtain ⟨origin, hf⟩ := Option.isSome_iff_exists.mp hf
      simp only [Expansion.about] at hf
      simp only [FileScope.effects, hf]
      exact ⟨_, List.Sublist.refl _, madeUp_stays rfl front⟩
  | datasetKey t base key hf =>
      obtain ⟨origin, hf⟩ := Option.isSome_iff_exists.mp hf
      simp only [Expansion.about] at hf
      simp only [FileScope.effects, hf]
      exact ⟨_, List.Sublist.refl _, .temp (generatedFrom_temp _ _ _ hle) (madeUp_stays rfl _)⟩
  | read t base index indexVar d type hf hd hi ht =>
      simp only [Expansion.about] at hf hd
      simp only [FileScope.effects, hf, hd, ht]
      exact ⟨[], List.nil_sublist _, madeUp_readCode hle front⟩
  | plain t value hp =>
      have heffects : c.effects st.facts (.assign t value) = [] := by
        cases hp with
        | constItem hf hd =>
            simp only [Expansion.about] at hf hd
            simp only [FileScope.effects, hf, hd]
        | _ => rfl
      rw [heffects]
      exact ⟨_, List.Sublist.refl _, madeUp_stays rfl front⟩
  | openFile t callee args kws name hc hn =>
      simp only [Expansion.about] at hc
      simp only [FileScope.effects, hc, if_true, hn, Option.toList_some, List.singleton_append]
      exact ⟨[], List.nil_sublist _, madeUp_openCode _ hle front⟩
  | closeFile t callee args kws file ho hc =>
      simp only [Expansion.about] at ho hc
      simp only [FileScope.effects, ho, hc, Bool.false_eq_true, if_false]
      exact ⟨[], List.nil_sublist _, madeUp_callCode hle rfl (by simp) (by simp) front⟩
  | createDataset t callee args kws file name shape elem dims ho hx hc hn hs he hd =>
      simp only [Expansion.about] at ho hx hc
      simp only [FileScope.effects, ho, hx, hc, hn, hs, he, Bool.false_eq_true, if_false]
      exact ⟨[], List.nil_sublist _, madeUp_createDatasetCode hle front⟩
  | createGroup t callee args kws file name ho hx hy hc hn =>
      simp only [Expansion.about] at ho hx hy hc
      simp only [FileScope.effects, ho, hx, hy, hc, hn, Bool.false_eq_true, if_false]
      exact ⟨[], List.nil_sublist _, madeUp_callCode hle rfl (by simp) (by simp) front⟩
  | call t callee args kws hc =>
      obtain ⟨ho, hx, hy, hz⟩ := hc
      simp only [Expansion.about] at ho hx hy hz
      simp only [FileScope.effects, ho, hx, hy, hz, Bool.false_eq_true, if_false]
      exact ⟨[], List.nil_sublist _, madeUp_own rfl front⟩
  | write t index value d rank hf hd hi hr =>
      simp only [Expansion.about] at hd
      simp only [FileScope.effects, hd]
      exact ⟨[], List.nil_sublist _, madeUp_transferCode hle rfl front⟩
  | store t index value hf hd =>
      simp only [Expansion.about] at hd
      simp only [FileScope.effects, hd]
      exact ⟨[], List.nil_sublist _, madeUp_own rfl front⟩
  -- nothing is known that would give the statement an effect
  | _ => exact ⟨_, List.Sublist.refl _, madeUp_stays rfl front⟩

theorem ExpandsAt.madeUp {f : Function} {catalog : Option Inspector} {l : Label}
    {front rest : List Stmt} {rows : List (List Stmt)}
    (h : ExpandsAt f catalog l (fun st => n ≤ st.nextTemp) front rest rows) (done : List Stmt) :
    ∃ kept, kept.Sublist (rest.filter fun u => !u.hasEffect) ∧
      MadeUp n done rows.flatten kept (f.effectsAt catalog l front rest) := by
  induction h generalizing done with
  | nil front => exact ⟨[], List.nil_sublist _, .nil⟩
  | @cons front rest out rows s st st' hfacts hle hs _ ih =>
      obtain ⟨k₁, hk₁, hfirst⟩ := (expands_of_stmt hs).madeUp hle done
      obtain ⟨k₂, hk₂, hrest⟩ := ih (done ++ out)
      refine ⟨k₁ ++ k₂, ?_, ?_⟩
      · rw [← List.singleton_append, List.filter_append]
        exact hk₁.append hk₂
      · rw [Function.effectsAt, hfacts, List.flatten_cons]
        exact hfirst.append hrest

/-- Effects stay when dead statements go, and with a call what it was loaded with. -/
theorem MadeUp.withoutDead {e : Function} {l : Label} {b : Block} (hb : e.block? l = some b)
    {front row kept : List Stmt} {effects : List Effect} (h : MadeUp n front row kept effects)
    (hbody : b.body = front ++ row) :
    MadeUp n (front.filter (Stmt.isKept e.neededNames)) (row.filter (Stmt.isKept e.neededNames))
      (kept.filter (Stmt.isKept e.neededNames)) effects := by
  -- the statement in hand goes to the front, and stays there or is dropped there as well
  have hnext : ∀ (front row : List Stmt) (s : Stmt), b.body = front ++ s :: row →
      b.body = front ++ [s] ++ row := fun front row s hs => hs.trans (List.append_cons ..)
  have hkeep : ∀ (front : List Stmt) (s : Stmt), s.isKept e.neededNames →
      (front ++ [s]).filter (Stmt.isKept e.neededNames) =
        front.filter (Stmt.isKept e.neededNames) ++ [s] := fun front s hs => by
    rw [List.filter_append, List.filter_cons_of_pos hs, List.filter_nil]
  have hdrop : ∀ (front : List Stmt) (s : Stmt), ¬ s.isKept e.neededNames →
      (front ++ [s]).filter (Stmt.isKept e.neededNames) =
        front.filter (Stmt.isKept e.neededNames) := fun front s hs => by
    rw [List.filter_append, List.filter_cons_of_neg hs, List.filter_nil, List.append_nil]
  induction h with
  | nil => exact .nil
  | @stays front row kept effects s hs _ ih =>
      have hrest := ih (hnext _ _ _ hbody)
      by_cases hkept : s.isKept e.neededNames
      · rw [List.filter_cons_of_pos hkept, List.filter_cons_of_pos hkept]
        exact .stays hs (hkeep front s hkept ▸ hrest)
      · rw [List.filter_cons_of_neg hkept, List.filter_cons_of_neg hkept]
        exact hdrop front s hkept ▸ hrest
  | @temp front row kept effects t value ht _ ih =>
      have hrest := ih (hnext _ _ _ hbody)
      by_cases hkept : (Stmt.assign t value).isKept e.neededNames
      · rw [List.filter_cons_of_pos hkept]
        exact .temp ht (hkeep front _ hkept ▸ hrest)
      · rw [List.filter_cons_of_neg hkept]
        exact hdrop front _ hkept ▸ hrest
  | @buffer front row kept effects file name t vars elem _ ih =>
      have hrest := ih (hnext _ _ _ hbody)
      by_cases hkept : (Stmt.assign t (.alloc vars elem)).isKept e.neededNames
      · rw [List.filter_cons_of_pos hkept]
        exact .buffer (hkeep front _ hkept ▸ hrest)
      · rw [List.filter_cons_of_neg hkept]
        exact hdrop front _ hkept ▸ hrest
  | @own front row kept effects s hs _ ih =>
      have hkept : s.isKept e.neededNames := Function.isKept_iff.mpr (Or.inl hs)
      rw [List.filter_cons_of_pos hkept]
      exact .own hs (hkeep front s hkept ▸ ih (hnext _ _ _ hbody))
  | @put front row kept effects t callee table args given p result hload harity hresult hgiven
      _ ih =>
      have hkept : (Stmt.call t callee args []).isKept e.neededNames :=
        Function.isKept_iff.mpr (Or.inl rfl)
      rw [List.filter_cons_of_pos hkept]
      exact .put (hload.withoutDead hb hbody).2 harity hresult hgiven
        (hkeep front _ hkept ▸ ih (hnext _ _ _ hbody))

end Expand

namespace Function

open Expand

/-- Nothing but statements changes when file calls are made positional, and what they do
outside keeps its order. The function, its parameters, its locals and its entry stay, and
so do the number of its blocks and the terminator of each. The body of a block is made up
of the effects of the statements that it had before, in their order, of some of the
statements without an effect that it had before, in their order, and of assignments to new
temporaries and buffers. -/
theorem effects_expandFiles {f g : Function} {catalog : Option Inspector}
    (h : f.expandFiles catalog = .ok g) :
    g = { f with blocks := g.blocks, nextTemp := g.nextTemp } ∧
    g.blocks.size = f.blocks.size ∧
    ∀ l b, f.block? l = some b → ∃ body kept,
      g.block? l = some { b with body } ∧
      kept.Sublist (b.body.filter fun s => !s.hasEffect) ∧
      MadeUp f.nextTemp [] body kept (f.effectsAt catalog l [] b.body) := by
  obtain ⟨e, rfl, hframe, hsize, hblocks⟩ := exists_expandsAt
    (I := fun st => f.nextTemp ≤ st.nextTemp) h (Nat.le_refl _) (fun _ _ hst => hst)
    fun _ _ _ _ _ hexp hst => Nat.le_trans hst hexp.nextTemp_le
  refine ⟨?_, ?_, ?_⟩
  · rw [withoutDead, hframe]
  · rw [withoutDead, Array.size_map, hsize]
  · intro l b hb
    obtain ⟨rows, hrows, he⟩ := hblocks l b hb
    obtain ⟨kept, hkept, hmade⟩ := hrows.madeUp []
    refine ⟨rows.flatten.filter (Stmt.isKept e.neededNames),
      kept.filter (Stmt.isKept e.neededNames), ?_, List.filter_sublist.trans hkept,
      hmade.withoutDead he rfl⟩
    rw [block?_withoutDead, he]
    rfl

/-- A variable names a dataset, is read into, and is stored into after that. -/
theorem storeAfterRead_effects :
    let f : Var := ⟨0, "f", ⟨5, 1⟩⟩
    let key : Var := ⟨0, "$dset_name.4", ⟨5, 1⟩⟩
    ∃ g body kept, storeAfterRead.expandFiles storeAfterReadCatalog = .ok g ∧
      g.block? 0 = some { storeAfterReadBlock with body } ∧
      kept.Sublist (storeAfterReadBlock.body.filter fun s => !s.hasEffect) ∧
      MadeUp 0 [] body kept
        [.put .openFile (some ⟨0, "f", ⟨4, 1⟩⟩) [⟨0, "n", ⟨4, 1⟩⟩], .put .size none [f, key],
          .put .read none [f, key, ⟨0, "x", ⟨6, 1⟩⟩],
          .put .write none [f, key, ⟨0, "y", ⟨7, 1⟩⟩]] := by
  intro f key
  have heffects : storeAfterRead.effectsAt storeAfterReadCatalog 0 [] storeAfterReadBlock.body =
      [.put .openFile (some ⟨0, "f", ⟨4, 1⟩⟩) [⟨0, "n", ⟨4, 1⟩⟩], .put .size none [f, key],
        .put .read none [f, key, ⟨0, "x", ⟨6, 1⟩⟩],
        .put .write none [f, key, ⟨0, "y", ⟨7, 1⟩⟩]] := by
    have horder : storeAfterRead.order = [0] := order_eq_singleton rfl
    simp only [storeAfterReadBlock, effectsAt, factsAt, horder]
    decide +kernel
  obtain ⟨g, hg⟩ := exists_expandFiles_storeAfterRead
  obtain ⟨body, kept, hbody, hkept, hmade⟩ :=
    (effects_expandFiles hg).2.2 0 storeAfterReadBlock rfl
  exact ⟨g, body, kept, hg, hbody, hkept, heffects ▸ hmade⟩

end Function

end SpmdArrays
