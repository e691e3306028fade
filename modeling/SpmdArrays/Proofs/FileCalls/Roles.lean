import SpmdArrays.Proofs.FileCalls.FreshNames
import SpmdArrays.Proofs.Program.VisitingOrder

/-!
Where the roles of variables come from. A statement is taken for a file operation
because of what is known about the variable it acts on, and all of that was
learned from an assignment to this variable further up. Knowledge is never taken
back, so this need not be the last assignment; it is when there is only one.
-/

namespace SpmdArrays

namespace Expand

/-! ### Roles -/

/-- What a variable can be taken for. -/
inductive Role where
  | frontEnd
  | opener
  /-- A file or a group. -/
  | handle
  | dataset
  /-- A method of a handle. -/
  | method (m : Method)
  deriving DecidableEq, Repr

def Role.travels : Role → Bool
  | .handle | .dataset => true
  | .frontEnd | .opener | .method _ => false

mutual

/-- The statement `s`, standing behind the statements `pre`, gives a role to the
variable that it assigns. -/
inductive Makes : List Stmt → Stmt → Role → String → Prop
  | frontEnd (pre : List Stmt) (t : Var) : Makes pre (.assign t (.global .h5py)) .frontEnd t.name
  | opener {pre : List Stmt} (t : Var) {base : Var} (h : Made pre .frontEnd base.name) :
      Makes pre (.assign t (.attr base "File")) .opener t.name
  | openFile {pre : List Stmt} (t : Var) {callee : Var} (args : List Var)
      (kws : List (String × Var)) (h : Made pre .opener callee.name) :
      Makes pre (.call t callee args kws) .handle t.name
  | method {pre : List Stmt} (t : Var) {base : Var} (m : Method)
      (h : Made pre .handle base.name) :
      Makes pre (.assign t (.attr base m.name)) (.method m) t.name
  | createGroup {pre : List Stmt} (t : Var) {callee : Var} (args : List Var)
      (kws : List (String × Var)) (h : Made pre (.method .createGroup) callee.name) :
      Makes pre (.call t callee args kws) .handle t.name
  | createDataset {pre : List Stmt} (t : Var) {callee : Var} (args : List Var)
      (kws : List (String × Var)) (h : Made pre (.method .createDataset) callee.name) :
      Makes pre (.call t callee args kws) .dataset t.name
  | constItem {pre : List Stmt} (t : Var) {base : Var} (index : Literal) (indexVar : Option Var)
      (h : Made pre .handle base.name) :
      Makes pre (.assign t (.constItem base index indexVar)) .dataset t.name
  | item {pre : List Stmt} (t : Var) {base : Var} (index : Var)
      (h : Made pre .handle base.name) :
      Makes pre (.assign t (.item base index)) .dataset t.name
  | copy {pre : List Stmt} (t : Var) {source : Var} {role : Role} (hr : role.travels = true)
      (h : Made pre role source.name) : Makes pre (.assign t (.copy source)) role t.name

/-- Some statement of the row gave the role to the name. -/
inductive Made : List Stmt → Role → String → Prop
  | intro {pre : List Stmt} {i : Nat} {s : Stmt} {role : Role} {x : String}
      (hs : pre[i]? = some s) (h : Makes (pre.take i) s role x) : Made pre role x

end

theorem Made.append {pre : List Stmt} {role : Role} {x : String} (h : Made pre role x)
    (more : List Stmt) : Made (pre ++ more) role x := by
  obtain ⟨hs, hm⟩ := h
  rename_i i s
  have hi : i < pre.length := (List.getElem?_eq_some_iff.mp hs).1
  refine .intro (i := i) (s := s) ?_ ?_
  · rw [List.getElem?_append_left hi, hs]
  · rw [List.take_append_of_le_length (Nat.le_of_lt hi)]
    exact hm

theorem Makes.made {pre : List Stmt} {s : Stmt} {role : Role} {x : String}
    (h : Makes pre s role x) : Made (pre ++ [s]) role x := by
  refine .intro (i := pre.length) (s := s) (by simp) ?_
  rw [List.take_left]
  exact h

theorem Makes.assigns {pre : List Stmt} {s : Stmt} {role : Role} {x : String}
    (h : Makes pre s role x) : s.Assigns x := by
  cases h <;> rfl

/-! ### What is known comes from the statements -/

def Has (k : Known) : Role → Prop
  | .frontEnd => k.isFrontEnd = true
  | .opener => k.opensFiles = true
  | .handle => k.file.isSome
  | .dataset => k.dataset.isSome
  | .method .close => k.closes.isSome
  | .method .createDataset => k.makesDataset.isSome
  | .method .createGroup => k.makesGroup.isSome

/-- Every role that is known was given by one of the statements. -/
def Tracks (pre : List Stmt) (f : Facts) : Prop :=
  ∀ x role, Has (f.about x) role → Made pre role x

theorem tracks_empty : Tracks [] {} := by
  intro x role h
  rw [Facts.about_empty] at h
  rcases role with _ | _ | _ | _ | (_ | _ | _) <;> cases h

variable {pre : List Stmt} {f : Facts} {c : FileScope} {st st' : Expansion} {s : Stmt}
  {out : List Stmt}

theorem Tracks.append (h : Tracks pre f) (s : Stmt) : Tracks (pre ++ [s]) f :=
  fun x role hx => (h x role hx).append [s]

theorem Tracks.learn (h : Tracks pre f) {name : String} {add : Known → Known}
    (hadd : ∀ role, Has (add (f.about name)) role →
      Has (f.about name) role ∨ Makes pre s role name) :
    Tracks (pre ++ [s]) (f.learn name add) := by
  intro x role hx
  rw [Facts.about_learn] at hx
  split at hx
  · rename_i heq
    subst heq
    rcases hadd role hx with hold | hnew
    · exact (h name role hold).append [s]
    · exact hnew.made
  · exact (h x role hx).append [s]

theorem Tracks.learn_role (h : Tracks pre f) {name : String} {add : Known → Known} {role : Role}
    (hadd : ∀ k r, Has (add k) r → r = role ∨ Has k r) (hnew : Makes pre s role name) :
    Tracks (pre ++ [s]) (f.learn name add) := by
  refine h.learn fun r hr => ?_
  rcases hadd _ r hr with rfl | hold
  · exact Or.inr hnew
  · exact Or.inl hold

theorem Tracks.learn_other (h : Tracks pre f) (name : String) {add : Known → Known}
    (hadd : ∀ k role, Has (add k) role → Has k role) : Tracks pre (f.learn name add) := by
  intro x role hx
  rw [Facts.about_learn] at hx
  split at hx
  · exact h x role (hadd _ role hx)
  · exact h x role hx

theorem Tracks.noteConst (h : Tracks pre f) (v : Var) (lit : Literal) :
    Tracks pre (f.noteConst v lit) := by
  cases lit with
  | str key =>
      refine h.learn_other _ fun k role hk => ?_
      rcases role with _ | _ | _ | _ | (_ | _ | _) <;> exact hk
  | _ => exact h

theorem Tracks.noteCopies (h : Tracks pre f) (body : List Stmt) :
    Tracks pre (f.noteCopies body) := by
  refine Facts.noteCopies_induct h fun g target source _ hg => ?_
  refine hg.learn_other _ fun k role hk => ?_
  rcases role with _ | _ | _ | _ | (_ | _ | _) <;> exact hk

theorem isSome_of_orElse {α : Type} {a b : Option α} (h : (a <|> b).isSome = true) :
    a.isSome = true ∨ b.isSome = true := by
  cases a with
  | none => exact Or.inr h
  | some _ => exact Or.inl rfl

theorem Tracks.noteCopy (h : Tracks pre f) (t source : Var) :
    Tracks (pre ++ [.assign t (.copy source)]) (f.noteCopy t source) := by
  refine h.learn fun role hrole => ?_
  have hcopy : role.travels = true → Has (f.about source.name) role →
      Makes pre (.assign t (.copy source)) role t.name :=
    fun htravels hsource => .copy t htravels (h source.name role hsource)
  rcases role with _ | _ | _ | _ | (_ | _ | _)
  · exact Or.inl hrole
  · exact Or.inl hrole
  · exact (isSome_of_orElse hrole).elim (fun hsource => Or.inr (hcopy rfl hsource)) Or.inl
  · exact (isSome_of_orElse hrole).elim (fun hsource => Or.inr (hcopy rfl hsource)) Or.inl
  · exact Or.inl hrole
  · exact Or.inl hrole
  · exact Or.inl hrole

/-- One statement: what is known afterwards was given by it or by one before. -/
theorem Expands.tracks (h : Expands c st s out st') (hpre : Tracks pre st.facts) :
    Tracks (pre ++ [s]) st'.facts := by
  cases h with
  | frontEnd t =>
      refine hpre.learn_role (fun k r hr => ?_) (.frontEnd pre t)
      rcases r with _ | _ | _ | _ | (_ | _ | _) <;> first | exact Or.inl rfl | exact Or.inr hr
  | opener t base hb =>
      refine hpre.learn_role (fun k r hr => ?_) (.opener t (hpre base.name .frontEnd hb))
      rcases r with _ | _ | _ | _ | (_ | _ | _) <;> first | exact Or.inl rfl | exact Or.inr hr
  | method t base m hb hf =>
      refine hpre.learn_role (fun k r hr => ?_) (.method t m (hpre base.name .handle hf))
      cases m <;> rcases r with _ | _ | _ | _ | (_ | _ | _) <;>
        first | exact Or.inl rfl | exact Or.inr hr
  | datasetVar t base v index hf =>
      refine (hpre.noteConst v index).learn_role (fun k r hr => ?_)
        (.constItem t index (some v) (hpre base.name .handle hf))
      rcases r with _ | _ | _ | _ | (_ | _ | _) <;> first | exact Or.inl rfl | exact Or.inr hr
  | datasetKey t base key hf =>
      refine (hpre.noteConst _ (.str key)).learn_role (fun k r hr => ?_)
        (.constItem t (.str key) none (hpre base.name .handle hf))
      rcases r with _ | _ | _ | _ | (_ | _ | _) <;> first | exact Or.inl rfl | exact Or.inr hr
  | read t base index indexVar d type hf hd hi ht => exact hpre.append _
  | datasetItem t base index hf =>
      refine hpre.learn_role (fun k r hr => ?_) (.item t index (hpre base.name .handle hf))
      rcases r with _ | _ | _ | _ | (_ | _ | _) <;> first | exact Or.inl rfl | exact Or.inr hr
  | tuple t items =>
      refine (hpre.learn_other t.name fun k r hr => ?_).append _
      rcases r with _ | _ | _ | _ | (_ | _ | _) <;> exact hr
  | copy t source => exact hpre.noteCopy t source
  | const t lit => exact (hpre.noteConst t lit).append _
  | plain t value hp => exact hpre.append _
  | openFile t callee args kws name hc hn =>
      refine hpre.learn_role (fun k r hr => ?_) (.openFile t args kws (hpre callee.name .opener hc))
      rcases r with _ | _ | _ | _ | (_ | _ | _) <;> first | exact Or.inl rfl | exact Or.inr hr
  | closeFile t callee args kws file ho hc => exact hpre.append _
  | createDataset t callee args kws file name shape elem dims ho hx hc hn hs he hd =>
      have hmethod : Made pre (.method .createDataset) callee.name :=
        hpre callee.name (.method .createDataset) (Option.isSome_of_mem hc)
      refine hpre.learn_role (fun k r hr => ?_) (.createDataset t args kws hmethod)
      rcases r with _ | _ | _ | _ | (_ | _ | _) <;> first | exact Or.inl rfl | exact Or.inr hr
  | createGroup t callee args kws file name ho hx hy hc hn =>
      have hmethod : Made pre (.method .createGroup) callee.name :=
        hpre callee.name (.method .createGroup) (Option.isSome_of_mem hc)
      refine hpre.learn_role (fun k r hr => ?_) (.createGroup t args kws hmethod)
      rcases r with _ | _ | _ | _ | (_ | _ | _) <;> first | exact Or.inl rfl | exact Or.inr hr
  | call t callee args kws hc => exact hpre.append _
  | write t index value d rank hf hd hi hr => exact hpre.append _
  | store t index value hf hd => exact hpre.append _

theorem ExpandsRow.tracks {ss : List Stmt} {outs : List (List Stmt)}
    (h : ExpandsRow c st ss outs st') (hpre : Tracks pre st.facts) {i : Nat} {s : Stmt}
    {out : List Stmt} (hs : ss[i]? = some s) (hout : outs[i]? = some out) :
    ∃ st₁ st₂, Expands c st₁ s out st₂ ∧ Tracks (pre ++ ss.take i) st₁.facts := by
  induction h generalizing pre i with
  | nil st => cases hs
  | cons hfirst hrest ih =>
      cases i with
      | zero =>
          cases hs
          cases hout
          exact ⟨_, _, hfirst, by simpa using hpre⟩
      | succ i =>
          obtain ⟨st₁, st₂, hx, htracks⟩ := ih (hfirst.tracks hpre) hs hout
          refine ⟨st₁, st₂, hx, ?_⟩
          rw [List.take_succ_cons, List.append_cons]
          exact htracks

/-! ### Statements that become calls -/

def EndsInCall (e : EntryPoint) (out : List Stmt) : Prop :=
  ∃ front c args t n, out = front ++ callCode c e args t n

theorem EndsInCall.append {e : EntryPoint} {out : List Stmt} (h : EndsInCall e out)
    (front : List Stmt) : EndsInCall e (front ++ out) := by
  obtain ⟨front', c, args, t, n, rfl⟩ := h
  exact ⟨front ++ front', c, args, t, n, (List.append_assoc ..).symm⟩

theorem endsInCall_callCode (c : FileScope) (e : EntryPoint) (args : List Var) (t : Var) (n : Nat) :
    EndsInCall e (callCode c e args t n) :=
  ⟨[], c, args, t, n, rfl⟩

theorem endsInCall_transferCode (c : FileScope) (e : EntryPoint) (d : DatasetRef) (rank : Nat)
    (counts : Expr) (buffer : Var) (loc : Loc) (n : Nat) :
    EndsInCall e (transferCode c e d rank counts buffer loc n) :=
  (endsInCall_callCode ..).append _

theorem endsInCall_readCode (c : FileScope) (t : Var) (d : DatasetRef) (type : ArrayType)
    (n : Nat) : EndsInCall .read (readCode c t d type n) :=
  (endsInCall_transferCode ..).append _

theorem endsInCall_openCode (c : FileScope) (t name : Var) (n : Nat) (mode : Option Var) :
    EndsInCall .openFile (openCode c t name n mode) := by
  cases mode with
  | some mode => exact (endsInCall_callCode ..).append [_]
  | none => exact (endsInCall_callCode ..).append [_, _]

theorem endsInCall_createDatasetCode (c : FileScope) (t file name shape elem : Var)
    (rank n : Nat) :
    EndsInCall .createDataset (createDatasetCode c t file name shape elem rank n) :=
  (endsInCall_callCode ..).append [_]

theorem EndsInCall.three_le {e : EntryPoint} {out : List Stmt} (h : EndsInCall e out) :
    3 ≤ out.length := by
  obtain ⟨front, c, args, t, n, rfl⟩ := h
  simp [callCode, loadCode]

theorem EndsInCall.unique {e e' : EntryPoint} {out : List Stmt} (h : EndsInCall e out)
    (h' : EndsInCall e' out) : e = e' := by
  obtain ⟨front, c, args, t, n, rfl⟩ := h
  obtain ⟨front', c', args', t', n', heq⟩ := h'
  have hcode : callCode c e args t n = callCode c' e' args' t' n' :=
    (List.append_inj' heq (by simp [callCode, loadCode])).2
  have hname : e.name = e'.name := by
    simp only [callCode, loadCode, List.cons_append, List.cons.injEq, Stmt.assign.injEq,
      Expr.attr.injEq] at hcode
    exact hcode.2.1.2.2
  exact EntryPoint.name_inj hname

/-- What the variable acted on has to be for the entry point to be called; a file
is opened on no variable, and extents are only asked for on the way to a read. -/
def roleFor? : EntryPoint → Option Role
  | .closeFile => some (.method .close)
  | .createDataset => some (.method .createDataset)
  | .createGroup => some (.method .createGroup)
  | .read | .write => some .dataset
  | .openFile | .size => none

/-- The variable that a statement calls, looks into or stores into. -/
def actsOn? : Stmt → Option Var
  | .call _ callee _ _ => some callee
  | .assign _ (.attr base _) => some base
  | .assign _ (.constItem base _ _) => some base
  | .assign _ (.item base _) => some base
  | .store target _ _ => some target
  | .assign .. => none

/-- A statement becomes a call of an entry point only because of what is known
about the variable it acts on. -/
theorem Expands.has_role (h : Expands c st s out st') {e : EntryPoint} {role : Role}
    (hout : EndsInCall e out) (he : roleFor? e = some role) :
    ∃ v, actsOn? s = some v ∧ Has (st.about v) role := by
  have hlong := hout.three_le
  cases h with
  | read t base index indexVar d type hf hd hi ht =>
      cases hout.unique (endsInCall_readCode ..)
      cases he
      exact ⟨base, rfl, Option.isSome_of_mem hd⟩
  | openFile t callee args kws name hc hn =>
      cases hout.unique (endsInCall_openCode ..)
      cases he
  | closeFile t callee args kws file ho hc =>
      cases hout.unique (endsInCall_callCode ..)
      cases he
      exact ⟨callee, rfl, Option.isSome_of_mem hc⟩
  | createDataset t callee args kws file name shape elem dims ho hx hc hn hs he' hd =>
      cases hout.unique (endsInCall_createDatasetCode ..)
      cases he
      exact ⟨callee, rfl, Option.isSome_of_mem hc⟩
  | createGroup t callee args kws file name ho hx hy hc hn =>
      cases hout.unique (endsInCall_callCode ..)
      cases he
      exact ⟨callee, rfl, Option.isSome_of_mem hc⟩
  | write t index value d rank hf hd hi hr =>
      cases hout.unique (endsInCall_transferCode ..)
      cases he
      exact ⟨t, rfl, Option.isSome_of_mem hd⟩
  -- every other statement stays, with a name for a key before it at most
  | _ => simp at hlong

end Expand

namespace Function

open Expand

def opening (f : Function) (b : Block) : Expansion :=
  { facts := Facts.noteCopies {} b.body, nextTemp := f.nextTemp }

theorem exists_row_of_expandFiles {f g : Function} {b : Block} {catalog : Option Inspector}
    (hb : f.blocks = #[b]) (h : f.expandFiles catalog = .ok g) :
    ∃ outs st, row (f.fileScope catalog) b.body (f.opening b) = .ok (outs, st) ∧
      g = { f with
        blocks := #[{ b with body := outs.flatten }], nextTemp := st.nextTemp }.withoutDead := by
  obtain ⟨bs, st, hbs, rfl⟩ := expandFiles_ok h
  rw [order_eq_singleton (by rw [hb]; rfl), hb, Expand.blocks] at hbs
  obtain ⟨b', st₁, hblock, hrest⟩ := bind_eq_ok hbs
  cases hrest
  obtain ⟨out, hout, rfl⟩ := block_ok hblock
  obtain ⟨outs, hrow, rfl⟩ := row_of_stmts hout
  exact ⟨outs, st, hrow, rfl⟩

/-- In a function of one block, a statement that became a call to close, create,
read or write acts on a variable that some assignment further up made what the
call needs; the last assignment to it did if it is the only one. -/
theorem made_of_endsInCall {f g : Function} {b : Block} {catalog : Option Inspector}
    (hb : f.blocks = #[b]) (hg : f.expandFiles catalog = .ok g) :
    ∃ outs st, row (f.fileScope catalog) b.body (f.opening b) = .ok (outs, st) ∧
      g = { f with
        blocks := #[{ b with body := outs.flatten }], nextTemp := st.nextTemp }.withoutDead ∧
      ∀ i s out e role, b.body[i]? = some s → outs[i]? = some out → EndsInCall e out →
        roleFor? e = some role →
        ∃ v, actsOn? s = some v ∧ Made (b.body.take i) role v.name ∧
          ∀ j last, (b.body.take i)[j]? = some last → last.Assigns v.name →
            (∀ k other, (b.body.take i)[k]? = some other → other.Assigns v.name → k = j) →
            Makes (b.body.take j) last role v.name := by
  obtain ⟨outs, st, hrow, hg⟩ := exists_row_of_expandFiles hb hg
  refine ⟨outs, st, hrow, hg, ?_⟩
  intro i s out e role hs hout hcall hrole
  obtain ⟨st₁, st₂, hexpands, htracks⟩ :=
    (expandsRow_of_row hrow).tracks (tracks_empty.noteCopies b.body) hs hout
  obtain ⟨v, hv, hhas⟩ := hexpands.has_role hcall hrole
  have hmade : Made (b.body.take i) role v.name := htracks v.name role hhas
  refine ⟨v, hv, hmade, ?_⟩
  intro j last hlast hassigns honly
  obtain ⟨hmaker, hmakes⟩ := hmade
  rename_i k maker
  have hk : k = j := honly k maker hmaker hmakes.assigns
  subst hk
  have hki : k < i := by
    have hlen := (List.getElem?_eq_some_iff.mp hmaker).1
    rw [List.length_take] at hlen
    omega
  rw [hmaker] at hlast
  cases hlast
  rw [List.take_take, Nat.min_eq_left (Nat.le_of_lt hki)] at hmakes
  exact hmakes

/-- Reads a dataset into the variable that named it and then stores into the
array that this variable holds. -/
def storeAfterReadBlock : Block where
  body := [
    .assign ⟨0, "m", ⟨1, 1⟩⟩ (.global .h5py),
    .assign ⟨0, "open", ⟨2, 1⟩⟩ (.attr ⟨0, "m", ⟨2, 1⟩⟩ "File"),
    .assign ⟨0, "n", ⟨3, 1⟩⟩ (.const (.str "a.h5")),
    .call ⟨0, "f", ⟨4, 1⟩⟩ ⟨0, "open", ⟨4, 1⟩⟩ [⟨0, "n", ⟨4, 1⟩⟩] [],
    .assign ⟨0, "x", ⟨5, 1⟩⟩ (.constItem ⟨0, "f", ⟨5, 1⟩⟩ (.str "d") none),
    .assign ⟨0, "x", ⟨6, 1⟩⟩ (.constItem ⟨0, "x", ⟨6, 1⟩⟩ (.slice .full) none),
    .store ⟨0, "x", ⟨7, 1⟩⟩ (.slice .full) ⟨0, "y", ⟨7, 1⟩⟩]
  term := .ret (some ⟨0, "x", ⟨8, 1⟩⟩)

def storeAfterRead : Function where
  name := "main"
  params := ["y"]
  locals := Std.TreeMap.empty.insert "y" ⟨.float64, 1⟩
  blocks := #[storeAfterReadBlock]

def storeAfterReadCatalog : Option Inspector :=
  some (Catalog.inspect (BySource.empty.insert "a.h5" "d" ⟨.float64, [3]⟩))

theorem storeAfterRead_row :
    ∃ outs st out, row (storeAfterRead.fileScope storeAfterReadCatalog) storeAfterReadBlock.body
        (storeAfterRead.opening storeAfterReadBlock) = .ok (outs, st) ∧
      outs[6]? = some out ∧ EndsInCall .write out := by
  let c := storeAfterRead.fileScope storeAfterReadCatalog
  let d : DatasetRef := ⟨⟨0, "f", ⟨5, 1⟩⟩, temp c "dset_name" ⟨5, 1⟩ 4⟩
  let y : Var := ⟨0, "y", ⟨7, 1⟩⟩
  have hrun : ((row c storeAfterReadBlock.body
      (storeAfterRead.opening storeAfterReadBlock)).toOption.bind fun r => r.1[6]?) =
        some (transferCode c .write d 1 (.attr y "shape") y ⟨7, 1⟩ 16) := by
    decide +kernel
  cases hrow : row c storeAfterReadBlock.body (storeAfterRead.opening storeAfterReadBlock) with
  | error e =>
      rw [hrow] at hrun
      cases hrun
  | ok r =>
      rw [hrow] at hrun
      exact ⟨r.1, r.2, _, rfl, hrun, endsInCall_transferCode ..⟩

theorem exists_expandFiles_storeAfterRead :
    ∃ g, storeAfterRead.expandFiles storeAfterReadCatalog = .ok g :=
  exists_expandFiles (order_eq_singleton rfl) (by decide +kernel)

/-- The variable that is stored into was made a dataset. -/
theorem storeAfterRead_made :
    (∃ g, storeAfterRead.expandFiles storeAfterReadCatalog = .ok g) ∧
      Made (storeAfterReadBlock.body.take 6) .dataset "x" := by
  obtain ⟨g, hg⟩ := exists_expandFiles_storeAfterRead
  obtain ⟨outs, st, hrow, -, hmade⟩ := made_of_endsInCall rfl hg
  obtain ⟨outs', st', out, hrow', hout, hcall⟩ := storeAfterRead_row
  rw [hrow'] at hrow
  cases hrow
  obtain ⟨v, hv, hv', -⟩ := hmade 6 _ out .write .dataset rfl hout hcall rfl
  cases hv
  exact ⟨⟨g, hg⟩, hv'⟩

/-- Yet the last assignment to it left it an array, and gave it no role at all. -/
theorem storeAfterRead_last_assignment :
    (∃ g, storeAfterRead.expandFiles storeAfterReadCatalog = .ok g) ∧
      ∃ outs st out x last, row (storeAfterRead.fileScope storeAfterReadCatalog)
          storeAfterReadBlock.body (storeAfterRead.opening storeAfterReadBlock) = .ok (outs, st) ∧
        outs[6]? = some out ∧ EndsInCall .write out ∧
        storeAfterReadBlock.body[6]? = some (.store x (.slice .full) ⟨0, "y", ⟨7, 1⟩⟩) ∧
        storeAfterReadBlock.body[5]? = some last ∧ last.Assigns x.name ∧
        ∀ role, ¬ Makes (storeAfterReadBlock.body.take 5) last role x.name := by
  obtain ⟨outs, st, out, hrow, hout, hcall⟩ := storeAfterRead_row
  refine ⟨exists_expandFiles_storeAfterRead, outs, st, out, ⟨0, "x", ⟨7, 1⟩⟩, _, hrow, hout, hcall,
    rfl, rfl, rfl, ?_⟩
  intro role h
  -- an item of `x` makes a dataset only if `x` is a handle, which only calls and copies give
  cases h with
  | constItem t index indexVar hbase =>
      obtain ⟨hs, hmakes⟩ := hbase
      rename_i i s
      have hx := hmakes.assigns
      rcases i with _ | _ | _ | _ | _ | i
      · cases hs; simp [Stmt.Assigns, Stmt.target?] at hx
      · cases hs; simp [Stmt.Assigns, Stmt.target?] at hx
      · cases hs; simp [Stmt.Assigns, Stmt.target?] at hx
      · cases hs; simp [Stmt.Assigns, Stmt.target?] at hx
      · cases hs; cases hmakes
      · cases hs

end Function

end SpmdArrays
