import SpmdArrays.Proofs.Exec.Calls

/-!
What statements do, said of the device alone. A service is a computation on a device
that can stop as a run can stop. Statements perform a service when they bring the device
to where the service brings it and stop where it stops, and otherwise leave an
environment in which the result can be found. Services are put together as the
statements are, so a row of statements is described piece by piece.
-/

namespace SpmdArrays

abbrev Service (σ : Type) := EStateM (Stop RunError) σ

namespace Service

variable {σ α β : Type}

def ofExcept : Except (Stop RunError) α → Service σ α
  | .ok a => fun s => .ok a s
  | .error e => fun s => .error e s

theorem ofExcept_ok_bind (a : α) (g : α → Service σ β) : (ofExcept (.ok a) >>= g) = g a := rfl

theorem bind_apply (x : Service σ α) (g : α → Service σ β) (s : σ) :
    (x >>= g) s =
      match x s with
      | .ok a t => g a t
      | .error e t => .error e t := by
  simp only [bind, EStateM.bind]
  cases x s <;> rfl

theorem bind_of_ok {x : Service σ α} {s t : σ} {a : α} (h : x s = .ok a t)
    (g : α → Service σ β) : (x >>= g) s = g a t := by
  rw [bind_apply, h]

theorem bind_of_error {x : Service σ α} {s t : σ} {e : Stop RunError} (h : x s = .error e t)
    (g : α → Service σ β) : (x >>= g) s = .error e t := by
  rw [bind_apply, h]

end Service

/-- Asks for an answer, which must not be a failure. -/
def Device.demand {σ : Type} (d : Device σ) (q : Request) : Service σ Reply := fun s =>
  match d.answer q s with
  | (.error fault, t) => .error (.fault fault) t
  | (.ok reply, t) =>
    match checkStatus q.entry.name reply.status with
    | .error e => .error (.failed e) t
    | .ok () => .ok reply t

def Device.invoke {σ : Type} (d : Device σ) (e : EntryPoint) (args : List Value) :
    Service σ Reply := do
  d.demand (← Service.ofExcept ((prepare e [] args).mapError .failed)).request

theorem prepare_nil (e : EntryPoint) (vars : List Var) (args : List Value) :
    (prepare e [] args).map Prepared.request = (prepare e vars args).map Prepared.request := by
  unfold prepare
  split
  all_goals try rfl
  next file dataset rank start count stride dest =>
    cases Transfer.ofValues file dataset rank start count stride with
    | error err => rfl
    | ok t => cases dest <;> rfl

namespace Exec

variable {σ α β : Type} {d : Device σ}

/-- The statements do to the machine what the service does to its device. -/
def Performs (d : Device σ) (ss : List Stmt) (m : Machine σ) (x : Service σ α)
    (post : α → Env → Prop) : Prop :=
  match body d ss m, x m.device with
  | .ok () n, .ok a t => n.device = t ∧ post a n.env
  | .error e n, .error e' t => e = e' ∧ n.device = t
  | _, _ => False

theorem performs_nil {m : Machine σ} {a : α} {post : α → Env → Prop} (h : post a m.env) :
    Performs d [] m (pure a) post := ⟨rfl, h⟩

theorem Performs.mono {ss : List Stmt} {m : Machine σ} {x : Service σ α} {P Q : α → Env → Prop}
    (h : Performs d ss m x P) (hPQ : ∀ a env, P a env → Q a env) : Performs d ss m x Q := by
  unfold Performs at h ⊢
  cases hb : body d ss m with
  | error e n =>
      cases hx : x m.device with
      | error e' t => simpa only [hb, hx] using h
      | ok a t => simp [hb, hx] at h
  | ok u n =>
      cases hx : x m.device with
      | error e' t => simp [hb, hx] at h
      | ok a t =>
          rw [hb, hx] at h
          exact ⟨h.1, hPQ a n.env h.2⟩

theorem Performs.append {l r : List Stmt} {m : Machine σ} {x : Service σ α}
    {g : α → Service σ β} {P : α → Env → Prop} {Q : β → Env → Prop}
    (h : Performs d l m x P) (hnext : ∀ a n, P a n.env → Performs d r n (g a) Q) :
    Performs d (l ++ r) m (x >>= g) Q := by
  unfold Performs at h ⊢
  rw [body_append_apply, Service.bind_apply]
  cases hb : body d l m with
  | error e n =>
      cases hx : x m.device with
      | error e' t => simpa only [hb, hx] using h
      | ok a t => simp [hb, hx] at h
  | ok u n =>
      cases hx : x m.device with
      | error e' t => simp [hb, hx] at h
      | ok a t =>
          rw [hb, hx] at h
          obtain ⟨hdev, hpost⟩ := h
          subst hdev
          exact hnext a n hpost

theorem Performs.map {l : List Stmt} {m : Machine σ} {x : Service σ α} {g : α → β}
    {P : α → Env → Prop} {Q : β → Env → Prop} (h : Performs d l m x P)
    (hPQ : ∀ a env, P a env → Q (g a) env) : Performs d l m (x >>= fun a => pure (g a)) Q := by
  have hdone := h.append (r := []) (g := fun a => pure (g a)) (Q := Q)
    fun a n ha => performs_nil (hPQ a n.env ha)
  rwa [List.append_nil] at hdone

theorem Performs.append_silent {l r : List Stmt} {m : Machine σ} {x : Service σ β}
    {P : Env → Prop} {Q : β → Env → Prop}
    (h : Performs d l m (pure ()) fun _ => P) (hnext : ∀ n, P n.env → Performs d r n x Q) :
    Performs d (l ++ r) m x Q :=
  h.append (g := fun _ => x) fun _ n hn => hnext n hn

theorem performs_assign {m : Machine σ} {target : Var} {value : Expr}
    {x : Except (Stop RunError) α} {g : α → Value} (h : value.eval m.env = g <$> x) :
    Performs d [.assign target value] m (Service.ofExcept x)
      fun a env => env = m.env.insert target.name (g a) := by
  unfold Performs
  rw [body_cons_apply, stmt_assign_apply, h]
  cases x with
  | error e => exact ⟨rfl, rfl⟩
  | ok a => exact ⟨rfl, rfl⟩

theorem performs_assign_ok {m : Machine σ} {target : Var} {value : Expr} {v : Value}
    (h : value.eval m.env = .ok v) :
    Performs d [.assign target value] m (pure ()) fun _ env => env = m.env.insert target.name v :=
  performs_assign (x := .ok ()) (g := fun _ => v) h

/-- A call with positional arguments. Its buffer is put where it came from before the
target is assigned. -/
theorem performs_call {m : Machine σ} {target callee : Var} {args : List Var} {e : EntryPoint}
    {values : List Value} (hcallee : m.env[callee.name]? = some (.entry e))
    (hlen : args.length = e.arity) (hargs : args.mapM m.env.get = .ok values) :
    Performs d [.call target callee args []] m (d.invoke e values)
      fun reply env => 0 ≤ reply.status ∧ ∃ p, prepare e args values = .ok p ∧
        env = (afterCall m.env p reply).insert target.name (e.result reply.status) := by
  have hreq : m.env.request callee args [] = prepare e args values := by
    have hget : m.env.get callee = .ok (.entry e) := by rw [Env.get, hcallee]
    unfold Env.request
    rw [hget, ok_bind]
    simp only [List.isEmpty_nil, hlen, and_self, if_true, hargs, ok_bind]
  have hdir := prepare_nil e args values
  unfold Performs
  rw [body_cons_apply, stmt_call_apply, call_apply, hreq]
  unfold Device.invoke
  rw [Service.bind_apply]
  cases hp : prepare e args values with
  | error err =>
      rw [hp] at hdir
      cases hq : prepare e [] values with
      | ok q => rw [hq] at hdir; cases hdir
      | error err' =>
          rw [hq] at hdir
          cases hdir
          exact ⟨rfl, rfl⟩
  | ok p =>
      rw [hp] at hdir
      cases hq : prepare e [] values with
      | error err' => rw [hq] at hdir; cases hdir
      | ok q =>
          rw [hq] at hdir
          have hrequest : q.request = p.request := by simpa [Except.map] using hdir
          have hentry : p.request.entry = e := (prepares_of_prepare hp).entry_eq
          simp only [mapError_ok, Service.ofExcept, hrequest, Device.demand]
          rcases d.answer p.request m.device with ⟨fault | reply, t⟩
          · exact ⟨rfl, rfl⟩
          · simp only [settle]
            cases hstatus : checkStatus p.request.entry.name reply.status with
            | error err => exact ⟨rfl, rfl⟩
            | ok u => exact ⟨rfl, nonneg_of_checkStatus hstatus, p, rfl, by rw [hentry]⟩

end Exec

end SpmdArrays
