import SpmdArrays.Proofs.Exec.Agreement

/-!
What a call asks for, read back from its arguments. A request that could be
prepared goes to the entry point that the callee holds, and what it names are the
values of the variables that it was given.
-/

namespace SpmdArrays

theorem Value.asStr_ok {v : Value} {s : String} (h : v.asStr = .ok s) : v = .str s := by
  cases v <;> cases h
  rfl

theorem Value.asHandle_ok {v : Value} {n : Int} (h : v.asHandle = .ok n) : v = .handle n := by
  cases v <;> cases h
  rfl

theorem nonneg_of_checkStatus {entry : String} {status : Int}
    (h : checkStatus entry status = .ok ()) : 0 ≤ status := by
  unfold checkStatus at h
  split at h
  · cases h
  · omega

theorem checkStatus_error {entry : String} {status : Int} {e : RunError}
    (h : checkStatus entry status = .error e) : e = .callFailed entry status ∧ status < 0 := by
  unfold checkStatus at h
  split at h
  · cases h
    exact ⟨rfl, by assumption⟩
  · cases h

theorem Transfer.ofValues_ok {file dataset rank start count stride : Value} {t : Transfer}
    (h : Transfer.ofValues file dataset rank start count stride = .ok t) :
    file = .handle t.file ∧ dataset = .str t.dataset := by
  unfold Transfer.ofValues at h
  obtain ⟨r, -, h₁⟩ := exists_of_bind_ok h
  obtain ⟨starts, -, h₂⟩ := exists_of_bind_ok h₁
  obtain ⟨counts, -, h₃⟩ := exists_of_bind_ok h₂
  split at h₃
  · cases h₃
  · obtain ⟨n, hfile, h₄⟩ := exists_of_bind_ok h₃
    obtain ⟨s, hdataset, h₅⟩ := exists_of_bind_ok h₄
    obtain ⟨k, -, h₆⟩ := exists_of_bind_ok h₅
    cases h₆
    exact ⟨Value.asHandle_ok hfile, Value.asStr_ok hdataset⟩

/-- The arguments from which a request can be prepared, and the request. -/
inductive Prepares (vars : List Var) : EntryPoint → List Value → Prepared → Prop
  | openFile (source mode : String) (n : Int) (parallel : Value) :
      Prepares vars .openFile [.str source, .str mode, parallel]
        { request := .openFile source mode n }
  | closeFile (file : Int) :
      Prepares vars .closeFile [.handle file] { request := .closeFile file }
  | size (file : Int) (dataset : String) (n : Int) (dim : Value) :
      Prepares vars .size [.handle file, .str dataset, dim] { request := .size file dataset n }
  | read (t : Transfer) (rank start count stride : Value) (a : ArrayValue) :
      Prepares vars .read [.handle t.file, .str t.dataset, rank, start, count, stride, .array a]
        { request := .read t.file t.dataset t.start t.count t.stride a.data
          dest := vars.getLast?.map fun v => (v.name, a) }
  | write (t : Transfer) (rank start count stride : Value) (a : ArrayValue) :
      Prepares vars .write [.handle t.file, .str t.dataset, rank, start, count, stride, .array a]
        { request := .write t.file t.dataset t.start t.count t.stride a.data }
  | createDataset (file : Int) (name : String) (dims : List Int) (elem : ElementType)
      (rank shape elemName : Value) :
      Prepares vars .createDataset [.handle file, .str name, rank, shape, elemName]
        { request := .createDataset file name dims elem }
  | createGroup (file : Int) (name : String) :
      Prepares vars .createGroup [.handle file, .str name] { request := .createGroup file name }

theorem prepares_of_prepare {e : EntryPoint} {vars : List Var} {args : List Value} {p : Prepared}
    (h : prepare e vars args = .ok p) : Prepares vars e args p := by
  unfold prepare at h
  split at h
  · obtain ⟨source, hname, h₁⟩ := exists_of_bind_ok h
    obtain ⟨mode, hmode, h₂⟩ := exists_of_bind_ok h₁
    obtain ⟨n, -, h₃⟩ := exists_of_bind_ok h₂
    cases Value.asStr_ok hname
    cases Value.asStr_ok hmode
    cases h₃
    exact .openFile ..
  · obtain ⟨file, hfile, h₁⟩ := exists_of_bind_ok h
    cases Value.asHandle_ok hfile
    cases h₁
    exact .closeFile file
  · obtain ⟨file, hfile, h₁⟩ := exists_of_bind_ok h
    obtain ⟨dataset, hdataset, h₂⟩ := exists_of_bind_ok h₁
    obtain ⟨n, -, h₃⟩ := exists_of_bind_ok h₂
    cases Value.asHandle_ok hfile
    cases Value.asStr_ok hdataset
    cases h₃
    exact .size ..
  · obtain ⟨t, ht, h₁⟩ := exists_of_bind_ok h
    obtain ⟨hfile, hdataset⟩ := Transfer.ofValues_ok ht
    subst hfile hdataset
    split at h₁ <;> cases h₁
    exact .read ..
  · obtain ⟨t, ht, h₁⟩ := exists_of_bind_ok h
    obtain ⟨hfile, hdataset⟩ := Transfer.ofValues_ok ht
    subst hfile hdataset
    split at h₁ <;> cases h₁
    exact .write ..
  · obtain ⟨dims, -, h₁⟩ := exists_of_bind_ok h
    obtain ⟨rank, -, h₂⟩ := exists_of_bind_ok h₁
    split at h₂
    · cases h₂
    · obtain ⟨elem, -, h₃⟩ := exists_of_bind_ok h₂
      obtain ⟨file, hfile, h₄⟩ := exists_of_bind_ok h₃
      obtain ⟨name, hname, h₅⟩ := exists_of_bind_ok h₄
      cases Value.asHandle_ok hfile
      cases Value.asStr_ok hname
      cases h₅
      exact .createDataset ..
  · obtain ⟨file, hfile, h₁⟩ := exists_of_bind_ok h
    obtain ⟨name, hname, h₂⟩ := exists_of_bind_ok h₁
    cases Value.asHandle_ok hfile
    cases Value.asStr_ok hname
    cases h₂
    exact .createGroup ..
  · cases h

theorem Prepares.entry_eq {e : EntryPoint} {vars : List Var} {args : List Value} {p : Prepared}
    (h : Prepares vars e args p) : p.request.entry = e := by
  cases h <;> rfl

namespace Env

theorem get_ok {env : Env} {v : Var} {value : Value} (h : env.get v = .ok value) :
    env[v.name]? = some value := by
  unfold Env.get at h
  split at h
  · cases h
    assumption
  · cases h

theorem mapM_get_cons_ok {env : Env} {v : Var} {vs : List Var} {values : List Value}
    (h : (v :: vs).mapM env.get = .ok values) :
    ∃ w ws, env[v.name]? = some w ∧ vs.mapM env.get = .ok ws ∧ values = w :: ws := by
  rw [List.mapM_cons] at h
  obtain ⟨w, hw, h₁⟩ := exists_of_bind_ok h
  obtain ⟨ws, hws, h₂⟩ := exists_of_bind_ok h₁
  cases h₂
  exact ⟨w, ws, get_ok hw, hws, rfl⟩

theorem request_ok {env : Env} {callee : Var} {args : List Var} {kws : List (String × Var)}
    {p : Prepared} (h : env.request callee args kws = .ok p) :
    ∃ values, env[callee.name]? = some (.entry p.request.entry) ∧
      args.mapM env.get = .ok values ∧ Prepares args p.request.entry values p := by
  unfold Env.request at h
  obtain ⟨value, hvalue, h₁⟩ := exists_of_bind_ok h
  split at h₁
  · split at h₁
    · obtain ⟨values, hvalues, h₂⟩ := exists_of_bind_ok h₁
      have hprepares := prepares_of_prepare h₂
      have hentry := hprepares.entry_eq
      subst hentry
      exact ⟨values, get_ok hvalue, hvalues, hprepares⟩
    · cases h₁
  · cases h₁

end Env

/-! ### Why a request cannot be prepared -/

theorem length_of_mapM_ok {α β : Type} {g : α → Except RunError β} {xs : List α} {ys : List β}
    (h : xs.mapM g = .ok ys) : ys.length = xs.length := by
  induction xs generalizing ys with
  | nil =>
      cases h
      rfl
  | cons a xs ih =>
      rw [List.mapM_cons] at h
      obtain ⟨b, -, h₁⟩ := exists_of_bind_ok h
      obtain ⟨bs, hbs, h₂⟩ := exists_of_bind_ok h₁
      cases h₂
      rw [List.length_cons, List.length_cons, ih hbs]

/-- Stops, if at all, for a value of the wrong kind, and not for the number of arguments. -/
def StopsOnValues {α : Type} (x : Except RunError α) : Prop :=
  ∀ err, x = .error err → ∃ cause, err = .typeError cause ∧ ∀ e, cause ≠ .arity e

namespace StopsOnValues

variable {α β : Type}

theorem ok (a : α) : StopsOnValues (.ok a) := nofun

theorem typeError {cause : TypeCause} (h : ∀ e, cause ≠ .arity e) :
    StopsOnValues (.error (.typeError cause) : Except RunError α) := by
  intro err herr
  cases herr
  exact ⟨cause, rfl, h⟩

theorem bind {x : Except RunError α} {g : α → Except RunError β} (hx : StopsOnValues x)
    (hg : ∀ a, StopsOnValues (g a)) : StopsOnValues (x >>= g) := by
  cases x with
  | error err => exact fun err' h => hx err' (by cases h; rfl)
  | ok a => exact hg a

theorem mapM {g : α → Except RunError β} (hg : ∀ a, StopsOnValues (g a)) (xs : List α) :
    StopsOnValues (xs.mapM g) := by
  induction xs with
  | nil => exact ok []
  | cons x xs ih =>
      rw [List.mapM_cons]
      exact (hg x).bind fun b => ih.bind fun bs => ok (b :: bs)

theorem asInt (v : Value) : StopsOnValues v.asInt := by
  cases v <;> first | exact ok _ | exact typeError nofun

theorem asInts (v : Value) : StopsOnValues v.asInts := by
  cases v <;> first | exact mapM asInt _ | exact typeError nofun

theorem asStr (v : Value) : StopsOnValues v.asStr := by
  cases v <;> first | exact ok _ | exact typeError nofun

theorem asHandle (v : Value) : StopsOnValues v.asHandle := by
  cases v <;> first | exact ok _ | exact typeError nofun

theorem asElement (v : Value) : StopsOnValues v.asElement := by
  cases v with
  | str s =>
      rw [Value.asElement]
      split
      · exact ok _
      · exact typeError nofun
  | _ => exact typeError nofun

theorem transfer (file dataset rank start count stride : Value) :
    StopsOnValues (Transfer.ofValues file dataset rank start count stride) := by
  refine (asInt rank).bind fun r => (asInts start).bind fun starts =>
    (asInts count).bind fun counts => ?_
  split
  · exact typeError nofun
  · exact (asHandle file).bind fun h => (asStr dataset).bind fun s =>
      (asInt stride).bind fun k => ok _

theorem prepare {e : EntryPoint} (vars : List Var) {args : List Value}
    (h : args.length = e.arity) : StopsOnValues (prepare e vars args) := by
  cases e with
  | openFile =>
      match args, h with
      | [name, mode, parallel], _ =>
          exact (asStr name).bind fun n => (asStr mode).bind fun m =>
            (asInt parallel).bind fun p => ok _
  | closeFile =>
      match args, h with
      | [file], _ => exact (asHandle file).bind fun h => ok _
  | size =>
      match args, h with
      | [file, dataset, dim], _ =>
          exact (asHandle file).bind fun h => (asStr dataset).bind fun s =>
            (asInt dim).bind fun n => ok _
  | read =>
      match args, h with
      | [file, dataset, rank, start, count, stride, dest], _ =>
          refine (transfer file dataset rank start count stride).bind fun t => ?_
          cases dest <;> first | exact ok _ | exact typeError nofun
  | write =>
      match args, h with
      | [file, dataset, rank, start, count, stride, src], _ =>
          refine (transfer file dataset rank start count stride).bind fun t => ?_
          cases src <;> first | exact ok _ | exact typeError nofun
  | createDataset =>
      match args, h with
      | [file, name, rank, shape, elem], _ =>
          refine (asInts shape).bind fun dims => (asInt rank).bind fun r => ?_
          split
          · exact typeError nofun
          · exact (asElement elem).bind fun t => (asHandle file).bind fun h =>
              (asStr name).bind fun n => ok _
  | createGroup =>
      match args, h with
      | [file, name], _ => exact (asHandle file).bind fun h => (asStr name).bind fun n => ok _

end StopsOnValues

namespace Env

theorem mapM_get_error {env : Env} {vars : List Var} {err : RunError}
    (h : vars.mapM env.get = .error err) :
    ∃ v ∈ vars, env[v.name]? = none ∧ err = .undefinedVariable v.name := by
  induction vars with
  | nil => cases h
  | cons v vars ih =>
      rw [List.mapM_cons] at h
      cases hv : env[v.name]? with
      | none =>
          rw [Env.get, hv] at h
          cases h
          exact ⟨v, List.mem_cons_self .., hv, rfl⟩
      | some value =>
          rw [Env.get, hv] at h
          cases hvars : vars.mapM env.get with
          | error err' =>
              rw [hvars] at h
              cases h
              obtain ⟨w, hw, hnone, rfl⟩ := ih hvars
              exact ⟨w, List.mem_cons_of_mem _ hw, hnone, rfl⟩
          | ok values =>
              rw [hvars] at h
              cases h

theorem request_error {env : Env} {callee : Var} {args : List Var} {e : EntryPoint}
    {err : RunError} (hcallee : env[callee.name]? = some (.entry e))
    (harity : args.length = e.arity) (h : env.request callee args [] = .error err) :
    (∃ v ∈ args, env[v.name]? = none ∧ err = .undefinedVariable v.name) ∨
      ∃ cause, err = .typeError cause ∧ ∀ e', cause ≠ .arity e' := by
  have hget : env.get callee = .ok (.entry e) := by rw [Env.get, hcallee]
  rw [Env.request, hget, ok_bind] at h
  simp only [List.isEmpty_nil, harity, and_self, if_true] at h
  cases hvalues : args.mapM env.get with
  | error err' =>
      rw [hvalues] at h
      cases h
      exact Or.inl (mapM_get_error hvalues)
  | ok values =>
      rw [hvalues, ok_bind] at h
      exact Or.inr (StopsOnValues.prepare args ((length_of_mapM_ok hvalues).trans harity) err h)

end Env

theorem Exec.Next.mem_successors {env : Env} {t : Terminator} {l : Label}
    (h : Exec.Next.of env t = .ok (.goto l)) : l ∈ t.successors := by
  cases t with
  | jump target =>
      cases h
      exact List.mem_singleton_self _
  | branch cond yes no =>
      obtain ⟨v, -, h₁⟩ := exists_of_bind_ok h
      obtain ⟨b, -, h₂⟩ := exists_of_bind_ok h₁
      cases h₂
      cases b <;> simp [Terminator.successors]
  | ret value =>
      cases value with
      | none => cases h
      | some v =>
          obtain ⟨w, -, h₁⟩ := exists_of_bind_ok h
          cases h₁

end SpmdArrays
