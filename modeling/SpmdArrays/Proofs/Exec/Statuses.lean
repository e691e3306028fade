import SpmdArrays.Proofs.Exec.Requests

/-!
A device answers with a status, and a negative one is a failure. A run looks at
every status before it goes on: the conversation of a run with its device has no
failure in it, save for the last answer, and a failure there is the error that
the run stops with.

The conversation is not kept by the run. It is what the device says to the
requests of the run when they come one after another, and `Heard` ties the two
together along the way.
-/

namespace SpmdArrays

abbrev Exchange := Request × Except Fault Reply

/-- The request was answered, and the answer is no failure. -/
def Exchange.Granted (x : Exchange) : Prop := ∃ reply, x.2 = .ok reply ∧ 0 ≤ reply.status

namespace Device

variable {σ : Type}

def after (d : Device σ) (s : σ) (qs : List Request) : σ :=
  qs.foldl (fun t q => (d.answer q t).2) s

/-- The conversation of a device with someone who makes these requests. -/
def conversation (d : Device σ) : σ → List Request → List Exchange
  | _, [] => []
  | s, q :: qs => (q, (d.answer q s).1) :: d.conversation (d.answer q s).2 qs

theorem after_concat (d : Device σ) (s : σ) (qs : List Request) (q : Request) :
    d.after s (qs ++ [q]) = (d.answer q (d.after s qs)).2 := by
  rw [after, List.foldl_append]
  rfl

theorem conversation_concat (d : Device σ) (s : σ) (qs : List Request) (q : Request) :
    d.conversation s (qs ++ [q]) =
      d.conversation s qs ++ [(q, (d.answer q (d.after s qs)).1)] := by
  induction qs generalizing s with
  | nil => rfl
  | cons p qs ih =>
      rw [List.cons_append, conversation, conversation, ih, List.cons_append]
      rfl

end Device

namespace Exec

variable {σ : Type} {d : Device σ} {s : σ}

/-- Why a run stops, next to its conversation up to there. Either it stops on its
own, with nothing but success behind it, or the last answer stops it. -/
inductive Stopped : Stop RunError → List Exchange → Prop
  | own (e : Stop RunError) {xs : List Exchange} (h : ∀ x ∈ xs, x.Granted) : Stopped e xs
  | refused {xs : List Exchange} (h : ∀ x ∈ xs, x.Granted) (q : Request) (reply : Reply)
      (hneg : reply.status < 0) :
      Stopped (.failed (.callFailed q.entry.name reply.status)) (xs ++ [(q, .ok reply)])
  | faulted {xs : List Exchange} (h : ∀ x ∈ xs, x.Granted) (q : Request) (fault : Fault) :
      Stopped (.fault fault) (xs ++ [(q, .error fault)])

/-- A recording device that has granted all its requests so far. -/
structure Satisfied (d : Device σ) (s : σ) (p : σ × List Request) : Prop where
  state : p.1 = d.after s p.2
  granted : ∀ x ∈ d.conversation s p.2, x.Granted

/-- A computation goes on only when all it asked for was granted, and otherwise
stops for a reason that the conversation shows. -/
def Heard {α : Type} (d : Device σ) (s : σ) :
    EStateM.Result (Stop RunError) (Machine (σ × List Request)) α → Prop
  | .ok _ m => Satisfied d s m.device
  | .error e m => m.device.1 = d.after s m.requests ∧ Stopped e (d.conversation s m.requests)

theorem Satisfied.stop {α : Type} {m : Machine (σ × List Request)} (h : Satisfied d s m.device)
    (e : Stop RunError) :
    Heard d s (.error e m : EStateM.Result (Stop RunError) (Machine (σ × List Request)) α) :=
  ⟨h.state, .own e h.granted⟩

theorem settle_heard {m : Machine (σ × List Request)} (h : Satisfied d s m.device)
    (p : Prepared) : Heard d s (settle p m (d.recording.answer p.request m.device)) := by
  have hsaid := d.conversation_concat s m.device.2 p.request
  have hafter := d.after_concat s m.device.2 p.request
  rw [← h.state] at hsaid hafter
  change Heard d s (settle p m ((d.answer p.request m.device.1).1,
    (d.answer p.request m.device.1).2, m.device.2 ++ [p.request]))
  revert hsaid hafter
  rcases d.answer p.request m.device.1 with ⟨fault | reply, t⟩ <;> intro hsaid hafter
  · refine ⟨hafter.symm, ?_⟩
    rw [Machine.requests, hsaid]
    exact .faulted h.granted p.request fault
  · by_cases hneg : reply.status < 0
    · simp only [settle, checkStatus, if_pos hneg]
      refine ⟨hafter.symm, ?_⟩
      rw [Machine.requests, hsaid]
      exact .refused h.granted p.request reply hneg
    · simp only [settle, checkStatus, if_neg hneg]
      refine ⟨hafter.symm, ?_⟩
      rw [hsaid]
      intro x hx
      rcases List.mem_append.1 hx with hx | hx
      · exact h.granted x hx
      · cases List.mem_singleton.1 hx
        exact ⟨reply, rfl, by omega⟩

theorem call_heard {m : Machine (σ × List Request)} (h : Satisfied d s m.device)
    (callee : Var) (args : List Var) (kws : List (String × Var)) :
    Heard d s (call d.recording callee args kws m) := by
  rw [call_apply]
  cases m.env.request callee args kws with
  | error e => exact h.stop (.failed e)
  | ok p => exact settle_heard h p

theorem stmt_heard {m : Machine (σ × List Request)} (h : Satisfied d s m.device) (u : Stmt) :
    Heard d s (stmt d.recording u m) := by
  cases u with
  | assign target value =>
      rw [stmt_assign_apply]
      cases value.eval m.env with
      | error e => exact h.stop e
      | ok v => exact h
  | call target callee args kws =>
      have hcall := call_heard h callee args kws
      rw [stmt_call_apply]
      revert hcall
      cases call d.recording callee args kws m <;> exact id
  | store target index value =>
      rw [stmt_store_apply]
      cases storedValue m.env target index value with
      | error e => exact h.stop (.failed e)
      | ok v => exact h

theorem body_heard {m : Machine (σ × List Request)} (h : Satisfied d s m.device)
    (us : List Stmt) : Heard d s (body d.recording us m) := by
  induction us generalizing m with
  | nil => exact h
  | cons u us ih =>
      have hu := stmt_heard h u
      rw [body_cons_apply]
      revert hu
      cases stmt d.recording u m with
      | error e n => exact id
      | ok _ n => exact fun hu => ih hu

theorem blocks_heard {m : Machine (σ × List Request)} (h : Satisfied d s m.device)
    (f : Function) (steps : Nat) (l : Label) :
    Heard d s (blocks d.recording f steps l m) := by
  induction steps generalizing l m with
  | zero => exact h.stop _
  | succ steps ih =>
      rw [blocks_succ_apply]
      cases f.block? l with
      | none => exact h.stop _
      | some b =>
          have hbody := body_heard h b.body
          simp only
          revert hbody
          cases body d.recording b.body m with
          | error e n => exact id
          | ok _ n =>
              intro hbody
              simp only
              cases Next.of n.env b.term with
              | error e => exact hbody.stop (.failed e)
              | ok next =>
                  cases next with
                  | goto l' => exact ih hbody l'
                  | done v => exact hbody

end Exec

namespace Function

variable {σ : Type}

/-- The conversation of a run with its device. -/
def conversation (d : Device σ) (f : Function) (args : List Value) (s : σ) : List Exchange :=
  d.conversation s (f.requests d args s)

/-- The device is left where the conversation brought it, and the outcome of the
run goes with the conversation. -/
theorem run_heard (d : Device σ) (f : Function) (args : List Value) (s : σ) :
    (f.run d args s).2 = d.after s (f.requests d args s) ∧
      match (f.run d args s).1 with
      | .ok _ => ∀ x ∈ f.conversation d args s, x.Granted
      | .error e => Exec.Stopped e (f.conversation d args s) := by
  have hstart : Exec.Satisfied d s (f.begin args (s, [])).device := ⟨rfl, nofun⟩
  have h := Exec.blocks_heard hstart f stepLimit f.entry
  rw [run_eq_of_recording, conversation, requests, run_eq_outcome]
  revert h
  cases Exec.blocks d.recording f stepLimit f.entry (f.begin args (s, [])) with
  | ok v m => exact fun h => ⟨h.state, h.granted⟩
  | error e m => exact id

end Function

/-! ### Where a failure stands in a conversation -/

theorem Exchange.not_granted {q : Request} {reply : Reply} (hneg : reply.status < 0) :
    ¬ Exchange.Granted (q, .ok reply) := by
  rintro ⟨other, hother, hnonneg⟩
  cases hother
  omega

theorem Exchange.last_of_not_granted {xs front rest : List Exchange} {x y : Exchange}
    (hxs : ∀ x ∈ xs, x.Granted) (hx : ¬ x.Granted) (h : xs ++ [y] = front ++ x :: rest) :
    rest = [] ∧ front = xs ∧ x = y := by
  rcases rest.eq_nil_or_concat with rfl | ⟨rest, z, rfl⟩
  · obtain ⟨hfront, hlast⟩ := List.append_inj' h rfl
    cases hlast
    exact ⟨rfl, hfront.symm, rfl⟩
  · have hsplit : xs ++ [y] = (front ++ x :: rest) ++ [z] := by simpa using h
    have hmem : x ∈ xs := by
      rw [(List.append_inj' hsplit rfl).1]
      simp
    exact absurd (hxs x hmem) hx

theorem Exec.Stopped.of_refused {e : Stop RunError} {xs front rest : List Exchange} {q : Request}
    {reply : Reply} (h : Stopped e xs) (hxs : xs = front ++ (q, .ok reply) :: rest)
    (hneg : reply.status < 0) :
    rest = [] ∧ (∀ x ∈ front, x.Granted) ∧
      e = .failed (.callFailed q.entry.name reply.status) := by
  have hx := Exchange.not_granted (q := q) hneg
  cases h with
  | own e h =>
      have hmem : (q, .ok reply) ∈ xs := by simp [hxs]
      exact absurd (h _ hmem) hx
  | refused h q' reply' =>
      obtain ⟨rfl, rfl, hlast⟩ := Exchange.last_of_not_granted h hx hxs
      cases hlast
      exact ⟨rfl, h, rfl⟩
  | faulted h q' fault =>
      cases (Exchange.last_of_not_granted h hx hxs).2.2

/-- Statuses are never masked. A run that returns had every request granted. A
negative status is the last thing that a run hears, it comes after nothing but
success, and the run stops with it and the name of the entry point. Any other
error comes when no status was negative. -/
theorem Function.statuses_never_masked {σ : Type} (d : Device σ) (f : Function)
    (args : List Value) (s : σ) :
    ((∃ v, (f.run d args s).1 = .ok v) → ∀ x ∈ f.conversation d args s, x.Granted) ∧
    (∀ front q reply rest, f.conversation d args s = front ++ (q, .ok reply) :: rest →
      reply.status < 0 →
        rest = [] ∧ (∀ x ∈ front, Exchange.Granted x) ∧
          (f.run d args s).1 = .error (.failed (.callFailed q.entry.name reply.status))) ∧
    (∀ e, (f.run d args s).1 = .error e →
      (∀ entry status, e ≠ .failed (.callFailed entry status)) →
        ∀ x ∈ f.conversation d args s, ∀ reply, x.2 = .ok reply → 0 ≤ reply.status) := by
  have h := (f.run_heard d args s).2
  -- A refused request rules out success, and names the error.
  have hrefused : ∀ front q reply rest,
      f.conversation d args s = front ++ (q, .ok reply) :: rest → reply.status < 0 →
        rest = [] ∧ (∀ x ∈ front, Exchange.Granted x) ∧
          (f.run d args s).1 = .error (.failed (.callFailed q.entry.name reply.status)) := by
    intro front q reply rest hxs hneg
    cases hrun : (f.run d args s).1 with
    | ok v =>
        rw [hrun] at h
        exact absurd (h (q, .ok reply) (by simp [hxs])) (Exchange.not_granted hneg)
    | error e =>
        rw [hrun] at h
        obtain ⟨hrest, hfront, rfl⟩ := Exec.Stopped.of_refused h hxs hneg
        exact ⟨hrest, hfront, rfl⟩
  refine ⟨?_, hrefused, ?_⟩
  · rintro ⟨v, hv⟩
    rwa [hv] at h
  · intro e he hother x hx reply hreply
    refine Int.not_lt.1 fun hneg => ?_
    obtain ⟨front, rest, hxs⟩ := List.append_of_mem hx
    rw [← Prod.eta x, hreply] at hxs
    obtain ⟨-, -, herror⟩ := hrefused front x.1 reply rest hxs hneg
    rw [he] at herror
    exact hother _ _ (Except.error.inj herror)

end SpmdArrays
