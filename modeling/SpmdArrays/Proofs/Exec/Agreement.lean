import SpmdArrays.Exec.Run
import SpmdArrays.Proofs.Program.Assignments

/-!
A statement looks at variables by name only, and only at those that it lists as
uses. So two environments that hold the same values under a set of names that
covers the uses let it do the same: the same requests, the same outcome, and
environments that still agree. The equations in front say what each kind of
statement does to a machine; the rest of the theory cites them and leaves the
monad closed.
-/

namespace SpmdArrays

/-! ### What statements do to a machine -/

namespace Exec

variable {σ : Type}

theorem ofExcept_ok {α : Type} (a : α) (m : Machine σ) :
    (ofExcept ((Except.ok a : Except RunError α).mapError Stop.failed) : Exec σ α) m = .ok a m :=
  rfl

/-- The environment after a call that succeeded, up to its target. -/
def afterCall (env : Env) (p : Prepared) (reply : Reply) : Env :=
  match p.dest with
  | some (name, a) => env.insert name (.array { a with data := reply.buffer })
  | none => env

/-- What becomes of a prepared request once the device has answered it. -/
def settle (p : Prepared) (m : Machine σ) :
    Except Fault Reply × σ → EStateM.Result (Stop RunError) (Machine σ) Value
  | (.error fault, t) => .error (.fault fault) { m with device := t }
  | (.ok reply, t) =>
    match checkStatus p.request.entry.name reply.status with
    | .error e => .error (.failed e) { m with device := t }
    | .ok () => .ok (p.request.entry.result reply.status) ⟨afterCall m.env p reply, t⟩

theorem call_apply (d : Device σ) (callee : Var) (args : List Var) (kws : List (String × Var))
    (m : Machine σ) :
    call d callee args kws m =
      match m.env.request callee args kws with
      | .error e => .error (.failed e) m
      | .ok p => settle p m (d.answer p.request m.device) := by
  have hget : (get : Exec σ (Machine σ)) m = .ok m m := rfl
  unfold call
  simp only [bind, EStateM.bind, hget]
  cases hreq : m.env.request callee args kws with
  | error e => rfl
  | ok p =>
      simp only [ofExcept_ok, ask]
      cases hans : d.answer p.request m.device with
      | mk outcome t =>
          cases outcome with
          | error fault => rfl
          | ok reply =>
              simp only [settle, afterCall]
              cases hstatus : checkStatus p.request.entry.name reply.status with
              | error e => rfl
              | ok _ =>
                  cases hdest : p.dest with
                  | none => rfl
                  | some dest => rfl

theorem stmt_assign_apply (d : Device σ) (target : Var) (value : Expr) (m : Machine σ) :
    stmt d (.assign target value) m =
      match value.eval m.env with
      | .error e => .error e m
      | .ok v => .ok () { m with env := m.env.insert target.name v } := by
  have hget : (get : Exec σ (Machine σ)) m = .ok m m := rfl
  unfold stmt
  simp only [bind, EStateM.bind, hget]
  cases value.eval m.env <;> rfl

theorem stmt_call_apply (d : Device σ) (target callee : Var) (args : List Var)
    (kws : List (String × Var)) (m : Machine σ) :
    stmt d (.call target callee args kws) m =
      match call d callee args kws m with
      | .error e n => .error e n
      | .ok v n => .ok () { n with env := n.env.insert target.name v } := by
  unfold stmt
  simp only [bind, EStateM.bind]
  cases call d callee args kws m <;> rfl

def storedValue (env : Env) (target : Var) (index : Literal) (value : Var) :
    Except RunError Value := do
  let source ← env.get value
  (← env.get target).stored index source

theorem stmt_store_apply (d : Device σ) (target value : Var) (index : Literal)
    (m : Machine σ) :
    stmt d (.store target index value) m =
      match storedValue m.env target index value with
      | .error e => .error (.failed e) m
      | .ok v => .ok () { m with env := m.env.insert target.name v } := by
  have hget : (get : Exec σ (Machine σ)) m = .ok m m := rfl
  unfold stmt storedValue
  simp only [bind, EStateM.bind, hget, Except.bind]
  cases m.env.get value with
  | error e => rfl
  | ok source =>
      simp only [ofExcept_ok]
      cases m.env.get target with
      | error e => rfl
      | ok old =>
          simp only [ofExcept_ok]
          cases old.stored index source <;> rfl

@[simp] theorem body_nil (d : Device σ) : body d [] = pure () := rfl

theorem body_cons_apply (d : Device σ) (s : Stmt) (ss : List Stmt) (m : Machine σ) :
    body d (s :: ss) m =
      match stmt d s m with
      | .error e n => .error e n
      | .ok () n => body d ss n := by
  rw [body]
  simp only [bind, EStateM.bind]
  cases stmt d s m <;> rfl

theorem body_append_apply (d : Device σ) (ss ts : List Stmt) (m : Machine σ) :
    body d (ss ++ ts) m =
      match body d ss m with
      | .error e n => .error e n
      | .ok () n => body d ts n := by
  induction ss generalizing m with
  | nil => rfl
  | cons s ss ih =>
      rw [List.cons_append, body_cons_apply, body_cons_apply]
      cases stmt d s m with
      | error e n => rfl
      | ok _ n => exact ih n

end Exec

/-! ### Environments that agree -/

namespace Env

/-- The same value, or none, under every name that matters. -/
def Agree (L : String → Prop) (e e' : Env) : Prop := ∀ x, L x → e[x]? = e'[x]?

theorem getElem?_insert (e : Env) (x y : String) (v : Value) :
    (e.insert x v)[y]? = if x = y then some v else e[y]? := by
  rw [Std.TreeMap.getElem?_insert]
  simp only [Std.LawfulEqCmp.compare_eq_iff_eq]

theorem getElem?_insert_self (e : Env) (x : String) (v : Value) : (e.insert x v)[x]? = some v := by
  rw [getElem?_insert, if_pos rfl]

theorem getElem?_insert_of_ne (e : Env) {x y : String} (h : x ≠ y) (v : Value) :
    (e.insert x v)[y]? = e[y]? := by
  rw [getElem?_insert, if_neg h]

variable {L : String → Prop} {e e' : Env}

theorem Agree.insert (h : Agree L e e') (x : String) (v : Value) :
    Agree L (e.insert x v) (e'.insert x v) := by
  intro y hy
  rw [getElem?_insert, getElem?_insert, h y hy]

theorem Agree.insert_or (h : Agree L e e') (x : String) (v : Value) :
    Agree (fun y => x = y ∨ L y) (e.insert x v) (e'.insert x v) := by
  rintro y (rfl | hy)
  · rw [getElem?_insert_self, getElem?_insert_self]
  · exact h.insert x v y hy

theorem Agree.insert_left (h : Agree L e e') {x : String} (hx : ¬ L x) (v : Value) :
    Agree L (e.insert x v) e' := by
  intro y hy
  have hne : x ≠ y := fun hxy => hx (hxy ▸ hy)
  rw [getElem?_insert, if_neg hne, h y hy]

theorem Agree.insert_right (h : Agree L e e') {x : String} (hx : ¬ L x) (v : Value) :
    Agree L e (e'.insert x v) := by
  intro y hy
  have hne : x ≠ y := fun hxy => hx (hxy ▸ hy)
  rw [getElem?_insert, if_neg hne, h y hy]

theorem Agree.mono (h : Agree L e e') {L' : String → Prop} (hL : ∀ x, L' x → L x) :
    Agree L' e e' := fun x hx => h x (hL x hx)

theorem Agree.get (h : Agree L e e') {v : Var} (hv : L v.name) : e.get v = e'.get v := by
  rw [Env.get, Env.get, h v.name hv]

theorem mapM_congr {α β : Type} {xs : List α} {g g' : α → Except RunError β}
    (h : ∀ x ∈ xs, g x = g' x) : xs.mapM g = xs.mapM g' := by
  induction xs with
  | nil => rfl
  | cons x xs ih =>
      rw [List.mapM_cons, List.mapM_cons, h x (List.mem_cons_self ..),
        ih fun y hy => h y (List.mem_cons_of_mem _ hy)]

theorem Agree.mapM_get (h : Agree L e e') {vs : List Var} (hvs : ∀ v ∈ vs, L v.name) :
    vs.mapM e.get = vs.mapM e'.get :=
  mapM_congr fun v hv => h.get (hvs v hv)

theorem Agree.eval (h : Agree L e e') {value : Expr} (hu : ∀ v ∈ value.uses, L v.name) :
    value.eval e = value.eval e' := by
  cases value with
  | global name => rfl
  | const lit => rfl
  | copy source =>
      rw [Expr.eval, Expr.eval, h.get (hu source (by simp [Expr.uses]))]
  | tuple items =>
      have hitems : items.mapM e.get = items.mapM e'.get := h.mapM_get hu
      rw [Expr.eval, Expr.eval, hitems]
  | attr base name =>
      rw [Expr.eval, Expr.eval, h.get (hu base (by simp [Expr.uses]))]
  | constItem base index indexVar =>
      rw [Expr.eval, Expr.eval, h.get (hu base (by simp [Expr.uses]))]
  | item base index =>
      rw [Expr.eval, Expr.eval, h.get (hu base (by simp [Expr.uses])),
        h.get (hu index (by simp [Expr.uses]))]
  | alloc shape elem =>
      have hdims : (shape.mapM fun v => e.get v >>= Value.asExtent) =
          (shape.mapM fun v => e'.get v >>= Value.asExtent) :=
        mapM_congr fun v hv => by rw [h.get (hu v hv)]
      rw [Expr.eval, Expr.eval, hdims]

theorem Agree.request (h : Agree L e e') {callee : Var} {args : List Var}
    {kws : List (String × Var)} (hc : L callee.name) (ha : ∀ v ∈ args, L v.name) :
    e.request callee args kws = e'.request callee args kws := by
  rw [Env.request, Env.request, h.get hc, h.mapM_get ha]

theorem Agree.storedValue (h : Agree L e e') {target value : Var} (index : Literal)
    (ht : L target.name) (hv : L value.name) :
    Exec.storedValue e target index value = Exec.storedValue e' target index value := by
  rw [Exec.storedValue, Exec.storedValue, h.get ht, h.get hv]

theorem Agree.next (h : Agree L e e') {t : Terminator} (hu : ∀ v ∈ t.uses, L v.name) :
    Exec.Next.of e t = Exec.Next.of e' t := by
  cases t with
  | jump target => rfl
  | branch cond yes no =>
      rw [Exec.Next.of, Exec.Next.of, h.get (hu cond (by simp [Terminator.uses]))]
  | ret value =>
      cases value with
      | none => rfl
      | some v => rw [Exec.Next.of, Exec.Next.of, h.get (hu v (by simp [Terminator.uses]))]

end Env

/-! ### Runs that do the same -/

namespace Exec

variable {σ : Type} {L : String → Prop}

/-- The same outcome and the same device, and on success environments that
agree. -/
def Alike {α : Type} (L : String → Prop) :
    (r r' : EStateM.Result (Stop RunError) (Machine σ) α) → Prop
  | .ok a m, .ok b n => a = b ∧ m.device = n.device ∧ Env.Agree L m.env n.env
  | .error e m, .error e' n => e = e' ∧ m.device = n.device
  | _, _ => False

theorem call_alike (d : Device σ) {callee : Var} {args : List Var} (kws : List (String × Var))
    (hc : L callee.name) (ha : ∀ v ∈ args, L v.name) {m n : Machine σ}
    (hdev : m.device = n.device) (h : Env.Agree L m.env n.env) :
    Alike L (call d callee args kws m) (call d callee args kws n) := by
  rw [call_apply, call_apply, h.request hc ha, hdev]
  cases n.env.request callee args kws with
  | error e => exact ⟨rfl, hdev⟩
  | ok p =>
      simp only
      rcases d.answer p.request n.device with ⟨fault | reply, t⟩
      · exact ⟨rfl, rfl⟩
      · simp only [settle]
        cases checkStatus p.request.entry.name reply.status with
        | error e => exact ⟨rfl, rfl⟩
        | ok _ =>
            refine ⟨rfl, rfl, ?_⟩
            simp only [afterCall]
            cases p.dest with
            | none => exact h
            | some dest => exact h.insert _ _

theorem Alike.mono {α : Type} {L' : String → Prop}
    {r r' : EStateM.Result (Stop RunError) (Machine σ) α} (h : Alike L' r r')
    (hL : ∀ x, L x → L' x) : Alike L r r' := by
  cases r <;> cases r'
  · exact ⟨h.1, h.2.1, h.2.2.mono hL⟩
  · exact h
  · exact h
  · exact h

/-- The name that a statement assigns agrees afterwards, whatever it held before. -/
theorem stmt_alike_assigned (d : Device σ) {s : Stmt} (hu : ∀ v ∈ s.uses, L v.name)
    {m n : Machine σ} (hdev : m.device = n.device) (h : Env.Agree L m.env n.env) :
    Alike (fun x => s.Assigns x ∨ L x) (stmt d s m) (stmt d s n) := by
  have htarget : ∀ {t : Var}, s.target? = some t → ∀ x, (s.Assigns x ∨ L x) → t.name = x ∨ L x :=
    fun ht x hx => hx.imp_left fun hs => Option.some.inj (by rwa [Stmt.Assigns, ht] at hs)
  cases s with
  | assign target value =>
      rw [stmt_assign_apply, stmt_assign_apply, h.eval hu]
      cases value.eval n.env with
      | error e => exact ⟨rfl, hdev⟩
      | ok v => exact ⟨rfl, hdev, (h.insert_or _ _).mono (htarget rfl)⟩
  | call target callee args kws =>
      have hargs : ∀ v ∈ args, L v.name := fun v hv => hu v (by simp [Stmt.uses, hv])
      have hcall := call_alike d kws (hu callee (by simp [Stmt.uses])) hargs hdev h
      rw [stmt_call_apply, stmt_call_apply]
      revert hcall
      cases call d callee args kws m <;> cases call d callee args kws n <;> intro hcall
      · obtain ⟨rfl, hdev', h'⟩ := hcall
        exact ⟨rfl, hdev', (h'.insert_or _ _).mono (htarget rfl)⟩
      · exact hcall
      · exact hcall
      · exact hcall
  | store target index value =>
      rw [stmt_store_apply, stmt_store_apply,
        h.storedValue index (hu target (by simp [Stmt.uses])) (hu value (by simp [Stmt.uses]))]
      cases storedValue n.env target index value with
      | error e => exact ⟨rfl, hdev⟩
      | ok v => exact ⟨rfl, hdev, (h.insert _ _).mono fun x hx => hx.resolve_left nofun⟩

theorem stmt_alike (d : Device σ) {s : Stmt} (hu : ∀ v ∈ s.uses, L v.name) {m n : Machine σ}
    (hdev : m.device = n.device) (h : Env.Agree L m.env n.env) :
    Alike L (stmt d s m) (stmt d s n) :=
  (stmt_alike_assigned d hu hdev h).mono fun _ => Or.inr

end Exec

end SpmdArrays
