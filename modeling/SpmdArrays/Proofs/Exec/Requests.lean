import SpmdArrays.Proofs.Exec.Agreement

/-!
The requests that a run makes, in order. A device that keeps its requests only
ever adds to them, so whatever a run did is a beginning of what it does in the
end. `Covers` compares a run with one that is meant to stand for it: where the
first succeeds the second does the same, and where the first stops the second
has made at least the requests that the first one made.
-/

namespace SpmdArrays

def Machine.requests {σ : Type} (m : Machine (σ × List Request)) : List Request := m.device.2

namespace Exec

/-- Where a computation ends, whether it succeeds or not. -/
def final {ε S α : Type} : EStateM.Result ε S α → S
  | .ok _ s => s
  | .error _ s => s

/-- The second result stands for the first. `seen` and `seen'` are the requests
made so far, and `R` is what holds of the two states after a success. -/
def Covers {ε S T α : Type} (seen : S → List Request) (seen' : T → List Request)
    (R : S → T → Prop) : EStateM.Result ε S α → EStateM.Result ε T α → Prop
  | .ok a s, .ok b t => a = b ∧ R s t
  | .ok _ _, .error _ _ => False
  | .error _ s, r => seen s <+: seen' (final r)

variable {σ : Type}

/-! ### One more block -/

theorem blocks_succ_apply (d : Device σ) (f : Function) (steps : Nat) (l : Label)
    (m : Machine σ) :
    blocks d f (steps + 1) l m =
      match f.block? l with
      | none => .error (.failed (.unsupported (.missingBlock l))) m
      | some b =>
        match body d b.body m with
        | .error e n => .error e n
        | .ok () n =>
          match Next.of n.env b.term with
          | .error e => .error (.failed e) n
          | .ok (.goto l) => blocks d f steps l n
          | .ok (.done v) => .ok v n := by
  rw [blocks]
  cases f.block? l with
  | none => rfl
  | some b =>
      simp only [bind, EStateM.bind]
      cases body d b.body m with
      | error e n => rfl
      | ok _ n =>
          have hget : (get : Exec σ (Machine σ)) n = .ok n n := rfl
          simp only [hget]
          cases Next.of n.env b.term with
          | error e => rfl
          | ok next => cases next <;> rfl

/-! ### Requests are only added -/

theorem final_settle_device (p : Prepared) (m : Machine σ) (answer : Except Fault Reply × σ) :
    (final (settle p m answer)).device = answer.2 := by
  rcases answer with ⟨fault | reply, t⟩
  · rfl
  · simp only [settle]
    cases checkStatus p.request.entry.name reply.status <;> rfl

theorem call_requests (d : Device σ) (callee : Var) (args : List Var)
    (kws : List (String × Var)) (m : Machine (σ × List Request)) :
    m.requests <+: (final (call d.recording callee args kws m)).requests := by
  rw [call_apply]
  cases m.env.request callee args kws with
  | error e => exact List.prefix_refl _
  | ok p =>
      simp only [Machine.requests, final_settle_device]
      exact List.prefix_append _ _

theorem stmt_requests (d : Device σ) (s : Stmt) (m : Machine (σ × List Request)) :
    m.requests <+: (final (stmt d.recording s m)).requests := by
  cases s with
  | assign target value =>
      rw [stmt_assign_apply]
      cases value.eval m.env <;> exact List.prefix_refl _
  | call target callee args kws =>
      have hcall := call_requests d callee args kws m
      rw [stmt_call_apply]
      revert hcall
      cases call d.recording callee args kws m <;> exact id
  | store target index value =>
      rw [stmt_store_apply]
      cases storedValue m.env target index value <;> exact List.prefix_refl _

theorem body_requests (d : Device σ) (ss : List Stmt) (m : Machine (σ × List Request)) :
    m.requests <+: (final (body d.recording ss m)).requests := by
  induction ss generalizing m with
  | nil => exact List.prefix_refl _
  | cons s ss ih =>
      have hs := stmt_requests d s m
      rw [body_cons_apply]
      revert hs
      cases stmt d.recording s m with
      | error e n => exact id
      | ok _ n => exact fun hs => hs.trans (ih n)

theorem blocks_requests (d : Device σ) (f : Function) (steps : Nat) (l : Label)
    (m : Machine (σ × List Request)) :
    m.requests <+: (final (blocks d.recording f steps l m)).requests := by
  induction steps generalizing l m with
  | zero => exact List.prefix_refl _
  | succ steps ih =>
      rw [blocks_succ_apply]
      cases f.block? l with
      | none => exact List.prefix_refl _
      | some b =>
          have hbody := body_requests d b.body m
          simp only
          revert hbody
          cases body d.recording b.body m with
          | error e n => exact id
          | ok _ n =>
              intro hbody
              simp only
              cases Next.of n.env b.term with
              | error e => exact hbody
              | ok next =>
                  cases next with
                  | goto l' => exact hbody.trans (ih l' n)
                  | done v => exact hbody

theorem first_block_requests (d : Device σ) {f : Function} {l : Label} {b : Block}
    (hb : f.block? l = some b) (steps : Nat) (m : Machine (σ × List Request)) :
    (final (body d.recording b.body m)).requests <+:
      (final (blocks d.recording f (steps + 1) l m)).requests := by
  rw [blocks_succ_apply, hb]
  simp only
  cases body d.recording b.body m with
  | error e n => exact List.prefix_refl _
  | ok _ n =>
      simp only
      cases Next.of n.env b.term with
      | error e => exact List.prefix_refl _
      | ok next =>
          cases next with
          | goto l' => exact blocks_requests d f steps l' n
          | done v => exact List.prefix_refl _

/-! ### Recording changes nothing else -/

def unrecorded (m : Machine (σ × List Request)) : Machine σ := ⟨m.env, m.device.1⟩

@[simp] theorem unrecorded_env (m : Machine (σ × List Request)) : (unrecorded m).env = m.env := rfl

def mapState {ε S T α : Type} (g : S → T) : EStateM.Result ε S α → EStateM.Result ε T α
  | .ok a s => .ok a (g s)
  | .error e s => .error e (g s)

theorem call_unrecorded (d : Device σ) (callee : Var) (args : List Var)
    (kws : List (String × Var)) (m : Machine (σ × List Request)) :
    call d callee args kws (unrecorded m) =
      mapState unrecorded (call d.recording callee args kws m) := by
  rw [call_apply, call_apply, unrecorded_env]
  cases m.env.request callee args kws with
  | error e => rfl
  | ok p =>
      change settle p (unrecorded m) (d.answer p.request m.device.1) =
        mapState unrecorded (settle p m ((d.answer p.request m.device.1).1,
          (d.answer p.request m.device.1).2, m.device.2 ++ [p.request]))
      rcases d.answer p.request m.device.1 with ⟨fault | reply, t⟩
      · rfl
      · simp only [settle]
        cases checkStatus p.request.entry.name reply.status <;> rfl

theorem stmt_unrecorded (d : Device σ) (s : Stmt) (m : Machine (σ × List Request)) :
    stmt d s (unrecorded m) = mapState unrecorded (stmt d.recording s m) := by
  cases s with
  | assign target value =>
      rw [stmt_assign_apply, stmt_assign_apply, unrecorded_env]
      cases value.eval m.env <;> rfl
  | call target callee args kws =>
      rw [stmt_call_apply, stmt_call_apply, call_unrecorded]
      cases call d.recording callee args kws m <;> rfl
  | store target index value =>
      rw [stmt_store_apply, stmt_store_apply, unrecorded_env]
      cases storedValue m.env target index value <;> rfl

theorem body_unrecorded (d : Device σ) (ss : List Stmt) (m : Machine (σ × List Request)) :
    body d ss (unrecorded m) = mapState unrecorded (body d.recording ss m) := by
  induction ss generalizing m with
  | nil => rfl
  | cons s ss ih =>
      rw [body_cons_apply, body_cons_apply, stmt_unrecorded]
      cases stmt d.recording s m with
      | error e n => rfl
      | ok _ n => exact ih n

theorem blocks_unrecorded (d : Device σ) (f : Function) (steps : Nat) (l : Label)
    (m : Machine (σ × List Request)) :
    blocks d f steps l (unrecorded m) = mapState unrecorded (blocks d.recording f steps l m) := by
  induction steps generalizing l m with
  | zero => rfl
  | succ steps ih =>
      rw [blocks_succ_apply, blocks_succ_apply]
      cases f.block? l with
      | none => rfl
      | some b =>
          simp only [body_unrecorded]
          cases body d.recording b.body m with
          | error e n => rfl
          | ok _ n =>
              simp only [mapState, unrecorded_env]
              cases Next.of n.env b.term with
              | error e => rfl
              | ok next =>
                  cases next with
                  | goto l' => exact ih l' n
                  | done v => rfl

end Exec

namespace Function

variable {σ : Type}

/-- The requests that a run makes, first one first. -/
def requests (d : Device σ) (f : Function) (args : List Value) (s : σ) : List Request :=
  (f.run d.recording args (s, [])).2.2

def begin (f : Function) (args : List Value) (s : σ) : Machine σ :=
  ⟨Env.ofArgs f.params args, s⟩

/-- What is seen of a run from outside. -/
def outcome : EStateM.Result (Stop RunError) (Machine σ) (Option Value) →
    Except (Stop RunError) (Option Value) × σ
  | .ok v m => (.ok v, m.device)
  | .error e m => (.error e, m.device)

theorem run_eq_outcome (d : Device σ) (f : Function) (args : List Value) (s : σ) :
    f.run d args s = outcome (Exec.blocks d f stepLimit f.entry (f.begin args s)) := rfl

theorem run_eq_of_recording (d : Device σ) (f : Function) (args : List Value) (s : σ) :
    f.run d args s =
      ((f.run d.recording args (s, [])).1, (f.run d.recording args (s, [])).2.1) := by
  have h := Exec.blocks_unrecorded d f stepLimit f.entry (f.begin args (s, []))
  rw [run_eq_outcome, run_eq_outcome]
  rw [show f.begin args s = Exec.unrecorded (f.begin args (s, [])) from rfl, h]
  cases Exec.blocks d.recording f stepLimit f.entry (f.begin args (s, [])) <;> rfl

/-- A recorded run that stands for another one, seen from outside. -/
def StandsFor (r r' : Except (Stop RunError) (Option Value) × σ × List Request) : Prop :=
  match r with
  | (.ok v, t) => r' = (.ok v, t)
  | (.error _, t) => t.2 <+: r'.2.2

theorem standsFor_of_covers {R : Machine (σ × List Request) → Machine (σ × List Request) → Prop}
    (hR : ∀ m n, R m n → m.device = n.device)
    {r r' : EStateM.Result (Stop RunError) (Machine (σ × List Request)) (Option Value)}
    (h : Exec.Covers Machine.requests Machine.requests R r r') :
    StandsFor (outcome r) (outcome r') := by
  cases r with
  | error e m =>
      cases r' with
      | error e' n => exact h
      | ok w n => exact h
  | ok v m =>
      cases r' with
      | error e n => exact h.elim
      | ok w n =>
          obtain ⟨rfl, hn⟩ := h
          simp only [StandsFor, outcome, hR m n hn]

end Function

end SpmdArrays
