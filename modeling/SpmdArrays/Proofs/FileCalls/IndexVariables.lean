import SpmdArrays.Proofs.FileCalls.Mirroring
import SpmdArrays.Proofs.FileCalls.WrittenRuns

/-!
Where the variable of a constant index is assigned this constant, directly or through
copies, it holds the constant whenever a run as written comes to the index. A statement
as written changes the variable that it assigns, arrays that it fills and nothing else,
so a constant stays where it was put until its variable is assigned again.
-/

namespace SpmdArrays

namespace Front

variable {σ α β : Type} {x : String}

/-- The computation leaves the variable alone, or an array in the place of an array. -/
def Leaves (c : Front σ α) (x : String) : Prop :=
  ∀ m a n, c m = .ok a n → Env.Lasts m.env n.env x

theorem leaves_pure (a : α) : Leaves (pure a : Front σ α) x := by
  rintro m _ _ ⟨⟩
  exact .refl ..

theorem leaves_ofExcept (r : Except RunError α) : Leaves (ofExcept r : Front σ α) x := by
  intro m a n h
  cases r with
  | error e => cases h
  | ok b =>
      cases h
      exact .refl ..

theorem Leaves.bind {c : Front σ α} {k : α → Front σ β} (hc : Leaves c x)
    (hk : ∀ a, Leaves (k a) x) : Leaves (c >>= k) x := by
  intro m b n h
  rw [Service.bind_apply] at h
  cases hm : c m with
  | error e m' => rw [hm] at h; cases h
  | ok a m' =>
      rw [hm] at h
      exact (hc m a m' hm).trans (hk a m' b n h)

theorem leaves_get : Leaves (get : Front σ (FrontMachine σ)) x := by
  rintro m _ _ ⟨⟩
  exact .refl ..

theorem leaves_value (v : Var) : Leaves (value v : Front σ Value) x :=
  leaves_get.bind fun _ => leaves_ofExcept _

theorem leaves_require (what : String) (a : Option α) : Leaves (require what a : Front σ α) x := by
  cases a with
  | none => exact leaves_ofExcept (.error (.unsupported (.note what)))
  | some a => exact leaves_pure a

theorem leaves_argument (v : Option Var) : Leaves (argument v : Front σ Value) x :=
  (leaves_require _ v).bind leaves_value

theorem leaves_argumentOr (v : Option Var) (default : Value) :
    Leaves (argumentOr v default : Front σ Value) x := by
  cases v with
  | none => exact leaves_pure default
  | some v => exact leaves_value v

theorem leaves_serve (s : Service σ α) : Leaves (serve s) x := by
  intro m a n h
  rw [serve] at h
  cases hs : s m.device with
  | error e t => rw [hs] at h; cases h
  | ok b t =>
      rw [hs] at h
      cases h
      exact .refl ..

theorem leaves_bind {t : Var} (h : t.name ≠ x) (value : Option Value) (meaning : Option Meaning) :
    Leaves (bind t value meaning : Front σ Unit) x := by
  rintro m _ _ ⟨⟩
  exact Or.inl (m.bind_env_of_ne value meaning h)

theorem leaves_plain (d : Device σ) {s : Stmt} (h : ¬ s.Assigns x) : Leaves (plain d s) x := by
  intro m a n hrun
  rw [plain] at hrun
  cases hs : Exec.stmt d s m.toMachine with
  | error e m' => rw [hs] at hrun; cases hrun
  | ok u m' =>
      rw [hs] at hrun
      cases hrun
      rw [FrontMachine.toMachine_after]
      exact (Exec.runs_of_stmt hs).lasts h

variable (d : Device σ)

theorem leaves_request {t : Var} (h : t.name ≠ x) (e : EntryPoint) (values : List Value)
    (meaning : Option Meaning) : Leaves (request d t e values meaning) x :=
  (leaves_serve _).bind fun _ => leaves_bind h _ _

theorem leaves_assign (type : Option ArrayType) {t : Var} (e : Expr) (h : t.name ≠ x) :
    Leaves (assign d type t e) x := by
  have hplain : Leaves (plain d (.assign t e)) x :=
    leaves_plain d fun hassigns => h (Option.some.inj hassigns)
  refine leaves_get.bind fun m => ?_
  cases e with
  | global name =>
      cases name with
      | h5py => exact leaves_bind h _ _
      | _ => exact hplain
  | attr base name =>
      simp only
      split
      · split
        · exact leaves_bind h _ _
        · exact hplain
      · exact (leaves_value base).bind fun _ => leaves_bind h _ _
      · exact hplain
  | constItem base index indexVar =>
      simp only
      split
      · exact (leaves_value base).bind fun _ => leaves_bind h _ _
      · split
        · exact (leaves_require _ _).bind fun _ => (leaves_serve _).bind fun _ => leaves_bind h _ _
        · exact hplain
      · exact hplain
  | item base index =>
      simp only
      split
      · exact (leaves_value base).bind fun _ => (leaves_value index).bind fun _ => leaves_bind h _ _
      · exact hplain
  | copy source =>
      simp only
      split
      · split
        · exact leaves_bind h _ _
        · exact hplain
      · exact hplain
  | _ => exact hplain

theorem leaves_call {t : Var} (h : t.name ≠ x) (callee : Var) (args : List Var)
    (kws : List (String × Var)) : Leaves (call d t callee args kws) x := by
  refine leaves_get.bind fun m => ?_
  split
  · exact (leaves_argument _).bind fun _ => (leaves_argumentOr _ _).bind fun _ =>
      leaves_request d h _ _ _
  · exact leaves_request d h _ _ _
  · exact (leaves_argument _).bind fun _ => (leaves_argument _).bind fun _ =>
      (leaves_argument _).bind fun _ => (leaves_ofExcept _).bind fun _ => leaves_request d h _ _ _
  · exact (leaves_argument _).bind fun _ => leaves_request d h _ _ _
  · exact leaves_plain d fun hassigns => h (Option.some.inj hassigns)

theorem leaves_store (rank : Option Nat) (t : Var) (index : Literal) (source : Var) :
    Leaves (store d rank t index source) x := by
  refine leaves_get.bind fun m => ?_
  split
  · split
    · exact (leaves_require _ _).bind fun _ => (leaves_value source).bind fun _ =>
        (leaves_serve _).bind fun _ => leaves_pure ()
    · exact leaves_plain d nofun
  · exact leaves_plain d nofun

theorem leaves_stmt (c : FileScope) (facts : Facts) {s : Stmt} (h : ¬ s.Assigns x) :
    Leaves (stmt d c facts s) x := by
  cases s with
  | assign t e => exact leaves_assign d _ e (Expand.ne_of_not_assigns rfl h)
  | call t callee args kws => exact leaves_call d (Expand.ne_of_not_assigns rfl h) callee args kws
  | store t index source => exact leaves_store d _ t index source

theorem env_of_copy {c : FileScope} {facts : Facts} {t source : Var} {m n : FrontMachine σ}
    (h : stmt d c facts (.assign t (.copy source)) m = .ok () n) :
    n.env[t.name]? = m.env[source.name]? := by
  have hplain : plain d (.assign t (.copy source)) m = .ok () n →
      n.env[t.name]? = m.env[source.name]? := by
    intro hrun
    rw [plain, Exec.stmt_assign_apply, Expr.eval, Env.get] at hrun
    cases hs : m.env[source.name]? with
    | none => rw [hs] at hrun; cases hrun
    | some v =>
        rw [hs] at hrun
        cases hrun
        exact Env.getElem?_insert_self ..
  rw [stmt, assign, get_bind] at h
  simp only at h
  cases hm : m.meaning? source with
  | none =>
      rw [hm] at h
      exact hplain h
  | some meaning =>
      rw [hm] at h
      simp only at h
      by_cases ht : meaning.travels = true
      · rw [if_pos ht] at h
        cases h
        exact m.bind_env_self ..
      · rw [if_neg ht] at h
        exact hplain h

end Front

namespace Function

/-- The name is assigned the constant, or copied from a name that holds it. -/
inductive HoldsLiteral (f : Function) : String → Literal → Prop
  | const {t : Var} {lit : Literal} (h : .assign t (.const lit) ∈ f.stmts) :
      HoldsLiteral f t.name lit
  | copy {t source : Var} {lit : Literal} (h : .assign t (.copy source) ∈ f.stmts)
      (hs : HoldsLiteral f source.name lit) : HoldsLiteral f t.name lit

variable {σ : Type} {d : Device σ} {f : Function} {catalog : Option Inspector} {args : List Value}
  {s : σ}

theorem ComesTo.holds_literal (hf : f.Ssa) {l : Label} {front : List Stmt}
    {m : FrontMachine (σ × List Request)} (h : f.ComesTo d catalog args s l front m)
    {b : Block} (hb : f.block? l = some b) {x : String} {lit : Literal}
    (hlit : f.HoldsLiteral x lit) (hx : f.Given l front x) :
    m.env[x]? = some (.ofLiteral lit) := by
  induction h generalizing b x with
  | start =>
      have hnot := not_mem_of_given_entry (Array.getElem?_eq_some_iff.mp hb).1 hx
      cases hlit with
      | const h => exact absurd (mem_definedNames h rfl) hnot
      | copy h _ => exact absurd (mem_definedNames h rfl) hnot
  | @step l front u m n h hu hrun ih =>
      by_cases hassigns : u.Assigns x
      · -- the statement is the one that lets the name hold the constant
        cases hlit with
        | const h =>
            cases (hf.settled _).eq_of_assigns hu.mem_stmts h hassigns rfl
            cases hrun
            exact Env.getElem?_insert_self ..
        | copy h hs =>
            cases (hf.settled _).eq_of_assigns hu.mem_stmts h hassigns rfl
            rw [Front.env_of_copy d.recording hrun]
            exact ih hb hs (hf.given_of_uses hu (List.mem_singleton_self _))
      · have hold := ih hb hlit ((given_append_singleton hx).resolve_right hassigns)
        have hlasts := Front.leaves_stmt d.recording _ _ hassigns m () n hrun
        exact hlasts.eq hold (by cases lit <;> nofun)
  | jump h hl hnext ih =>
      exact ih hl hlit (hx.of_jump hl (Exec.Next.mem_successors hnext) hb)

/-- Constants that are assigned are there when they are used as an index. -/
theorem indexVarsHold_of_literals (hf : f.Ssa)
    (h : ∀ t base index v, .assign t (.constItem base index (some v)) ∈ f.stmts →
      f.HoldsLiteral v.name index) : f.IndexVarsHold d catalog args s := by
  intro l front m t base index v hcomes hbegins
  obtain ⟨b, hb, -⟩ := id hbegins
  refine hcomes.holds_literal hf hb (h t base index v hbegins.mem_stmts) ?_
  exact hf.given_of_uses hbegins (by simp [Stmt.uses, Expr.uses])

end Function

end SpmdArrays
