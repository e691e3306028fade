import SpmdArrays.Proofs.Exec.Requests
import SpmdArrays.Proofs.Program.Assignments

/-!
The places that a run comes to. `Reaches` follows a run statement by statement,
with what is left of the block it is in; an invariant of single statements then
holds wherever a run comes, and every request that a run makes is prepared by a
call that it comes to.
-/

namespace SpmdArrays

namespace Exec

variable {σ : Type}

/-- What a statement that succeeds does to a machine. -/
inductive Runs (d : Device σ) (m : Machine σ) : Stmt → Machine σ → Prop
  | assign (t : Var) {value : Expr} {v : Value} (h : value.eval m.env = .ok v) :
      Runs d m (.assign t value) { m with env := m.env.insert t.name v }
  | call (t : Var) {callee : Var} {args : List Var} {kws : List (String × Var)} {p : Prepared}
      {reply : Reply} {s : σ} (hp : m.env.request callee args kws = .ok p)
      (ha : d.answer p.request m.device = (.ok reply, s))
      (hs : checkStatus p.request.entry.name reply.status = .ok ()) :
      Runs d m (.call t callee args kws)
        ⟨(afterCall m.env p reply).insert t.name (p.request.entry.result reply.status), s⟩
  | store (t : Var) {index : Literal} {value : Var} {v : Value}
      (h : storedValue m.env t index value = .ok v) :
      Runs d m (.store t index value) { m with env := m.env.insert t.name v }

theorem runs_of_stmt {d : Device σ} {u : Stmt} {m n : Machine σ} (h : stmt d u m = .ok () n) :
    Runs d m u n := by
  cases u with
  | assign t value =>
      rw [stmt_assign_apply] at h
      cases hv : value.eval m.env with
      | error e => rw [hv] at h; cases h
      | ok v =>
          rw [hv] at h
          cases h
          exact .assign t hv
  | call t callee args kws =>
      rw [stmt_call_apply, call_apply] at h
      cases hp : m.env.request callee args kws with
      | error e => rw [hp] at h; cases h
      | ok p =>
          rw [hp] at h
          simp only at h
          rcases ha : d.answer p.request m.device with ⟨fault | reply, s⟩
          · rw [ha] at h
            cases h
          · rw [ha] at h
            simp only [settle] at h
            cases hs : checkStatus p.request.entry.name reply.status with
            | error e => rw [hs] at h; cases h
            | ok u =>
                rw [hs] at h
                cases h
                exact .call t hp ha hs
  | store t index value =>
      rw [stmt_store_apply] at h
      cases hv : storedValue m.env t index value with
      | error e => rw [hv] at h; cases h
      | ok v =>
          rw [hv] at h
          cases h
          exact .store t hv

/-- A statement that stops leaves the variables as they were. -/
theorem env_of_stmt_error {d : Device σ} {u : Stmt} {m n : Machine σ} {e : Stop RunError}
    (h : stmt d u m = .error e n) : n.env = m.env := by
  cases u with
  | assign target value =>
      rw [stmt_assign_apply] at h
      cases hv : value.eval m.env <;> rw [hv] at h <;> cases h
      rfl
  | store target index value =>
      rw [stmt_store_apply] at h
      cases hv : storedValue m.env target index value <;> rw [hv] at h <;> cases h
      rfl
  | call target callee args kws =>
      rw [stmt_call_apply, call_apply] at h
      cases hp : m.env.request callee args kws with
      | error err =>
          rw [hp] at h
          cases h
          rfl
      | ok p =>
          rw [hp] at h
          simp only at h
          rcases ha : d.answer p.request m.device with ⟨fault | reply, t⟩
          · rw [ha] at h
            cases h
            rfl
          · rw [ha] at h
            simp only [settle] at h
            cases hs : checkStatus p.request.entry.name reply.status <;> rw [hs] at h <;> cases h
            rfl

def ended? {ε S α : Type} : EStateM.Result ε S α → Option S
  | .ok _ s => some s
  | .error _ _ => none

theorem body_cons_ok {d : Device σ} {u : Stmt} {ss : List Stmt} {m n : Machine σ}
    (h : body d (u :: ss) m = .ok () n) :
    ∃ k, stmt d u m = .ok () k ∧ body d ss k = .ok () n := by
  rw [body_cons_apply] at h
  cases hu : stmt d u m with
  | error e k => rw [hu] at h; cases h
  | ok _ k =>
      rw [hu] at h
      exact ⟨k, rfl, h⟩

theorem body_append_ok {d : Device σ} {ss ts : List Stmt} {m n : Machine σ}
    (h : body d (ss ++ ts) m = .ok () n) :
    ∃ k, body d ss m = .ok () k ∧ body d ts k = .ok () n := by
  rw [body_append_apply] at h
  cases hs : body d ss m with
  | error e k => rw [hs] at h; cases h
  | ok _ k =>
      rw [hs] at h
      exact ⟨k, rfl, h⟩

end Exec

namespace Function

variable {σ : Type}

/-- A run comes to a machine with these statements and this terminator ahead. -/
inductive Reaches (d : Device σ) (f : Function) (args : List Value) (s : σ) :
    List Stmt → Terminator → Machine σ → Prop
  | start {b : Block} (hb : f.block? f.entry = some b) :
      Reaches d f args s b.body b.term (f.begin args s)
  | step {u : Stmt} {rest : List Stmt} {t : Terminator} {m n : Machine σ}
      (h : Reaches d f args s (u :: rest) t m) (hu : Exec.stmt d u m = .ok () n) :
      Reaches d f args s rest t n
  | jump {t : Terminator} {m : Machine σ} {l : Label} {b : Block}
      (h : Reaches d f args s [] t m) (ht : Exec.Next.of m.env t = .ok (.goto l))
      (hb : f.block? l = some b) : Reaches d f args s b.body b.term m

/-- A run comes to a call, and this is what the call asks for. -/
def Calls (d : Device σ) (f : Function) (args : List Value) (s : σ) (m : Machine σ)
    (p : Prepared) : Prop :=
  ∃ t callee vars kws rest term,
    f.Reaches d args s (.call t callee vars kws :: rest) term m ∧
      m.env.request callee vars kws = .ok p

variable {d : Device σ} {f : Function} {args : List Value} {s : σ}

theorem Reaches.mem_stmts {rest : List Stmt} {t : Terminator} {m : Machine σ}
    (h : f.Reaches d args s rest t m) : ∀ u ∈ rest, u ∈ f.stmts := by
  induction h with
  | start hb => exact fun u hu => Function.mem_stmts hb hu
  | step _ _ ih => exact fun u hu => ih u (List.mem_cons_of_mem _ hu)
  | jump _ _ hb _ => exact fun u hu => Function.mem_stmts hb hu

/-- What holds at the start and is kept by every statement holds all along. -/
theorem Reaches.invariant {I : Machine σ → Prop} (hstart : I (f.begin args s))
    (hstep : ∀ u ∈ f.stmts, ∀ m n, I m → Exec.Runs d m u n → I n) {rest : List Stmt}
    {t : Terminator} {m : Machine σ} (h : f.Reaches d args s rest t m) : I m := by
  induction h with
  | start hb => exact hstart
  | step hr hu ih =>
      exact hstep _ (hr.mem_stmts _ (List.mem_cons_self ..)) _ _ ih (Exec.runs_of_stmt hu)
  | jump _ _ _ ih => exact ih

theorem Reaches.body {ss rest : List Stmt} {t : Terminator} {m n : Machine σ}
    (h : f.Reaches d args s (ss ++ rest) t m) (hrun : Exec.body d ss m = .ok () n) :
    f.Reaches d args s rest t n := by
  induction ss generalizing m with
  | nil =>
      cases hrun
      exact h
  | cons u ss ih =>
      obtain ⟨k, hu, hrest⟩ := Exec.body_cons_ok hrun
      exact ih (.step h hu) hrest

/-- Wherever a run comes, it has run the block it is in up to there. -/
theorem Reaches.exists_front {rest : List Stmt} {t : Terminator} {m : Machine σ}
    (h : f.Reaches d args s rest t m) :
    ∃ l b front m₀, f.block? l = some b ∧ b.body = front ++ rest ∧
      Exec.body d front m₀ = .ok () m := by
  induction h with
  | start hb => exact ⟨_, _, [], _, hb, rfl, rfl⟩
  | @step u rest t m n _ hu ih =>
      obtain ⟨l, b, front, m₀, hb, hbody, hfront⟩ := ih
      refine ⟨l, b, front ++ [u], m₀, hb, by rw [hbody, List.append_assoc]; rfl, ?_⟩
      rw [Exec.body_append_apply, hfront]
      simp only [Exec.body_cons_apply, hu]
      rfl
  | jump _ _ hb _ => exact ⟨_, _, [], _, hb, rfl, rfl⟩

/-- A call that is ahead in the first block is found by running up to it. -/
theorem exists_calls_of_eval {b : Block} (hb : f.block? f.entry = some b) {front rest : List Stmt}
    {t callee : Var} {vars : List Var} {kws : List (String × Var)}
    (hbody : b.body = front ++ .call t callee vars kws :: rest) {α : Type}
    (look : Machine σ → Prepared → Option α) {a : α}
    (h : ((Exec.ended? (Exec.body d front (f.begin args s))).bind fun m =>
      (m.env.request callee vars kws).toOption.bind (look m)) = some a) :
    ∃ m p, f.Calls d args s m p ∧ look m p = some a := by
  obtain ⟨m, hm, h₁⟩ := Option.bind_eq_some_iff.mp h
  obtain ⟨p, hp, hlook⟩ := Option.bind_eq_some_iff.mp h₁
  refine ⟨m, p, ⟨t, callee, vars, kws, rest, b.term, ?_, ?_⟩, hlook⟩
  · have hstart : f.Reaches d args s (front ++ .call t callee vars kws :: rest) b.term
        (f.begin args s) := hbody ▸ .start hb
    refine hstart.body ?_
    revert hm
    cases Exec.body d front (f.begin args s) with
    | error e n => exact nofun
    | ok u n =>
        intro hm
        cases hm
        rfl
  · revert hp
    cases m.env.request callee vars kws with
    | error e => exact nofun
    | ok q =>
        intro hq
        cases hq
        rfl

/-! ### Every request comes from a call -/

theorem Reaches.unrecorded {rest : List Stmt} {t : Terminator}
    {m : Machine (σ × List Request)} (h : f.Reaches d.recording args (s, []) rest t m) :
    f.Reaches d args s rest t (Exec.unrecorded m) := by
  induction h with
  | start hb => exact .start hb
  | step _ hu ih =>
      refine .step ih ?_
      rw [Exec.stmt_unrecorded, hu]
      rfl
  | jump _ ht hb ih => exact .jump ih ht hb

variable {rest : List Stmt} {t : Terminator} {m : Machine (σ × List Request)} {q : Request}

theorem calls_of_stmt {u : Stmt} (h : f.Reaches d.recording args (s, []) (u :: rest) t m)
    (hq : q ∈ (Exec.final (Exec.stmt d.recording u m)).requests) (hnew : q ∉ m.requests) :
    ∃ n p, f.Calls d args s n p ∧ p.request = q := by
  cases u with
  | assign target value =>
      rw [Exec.stmt_assign_apply] at hq
      revert hq
      cases value.eval m.env <;> exact fun hq => absurd hq hnew
  | store target index value =>
      rw [Exec.stmt_store_apply] at hq
      revert hq
      cases Exec.storedValue m.env target index value <;> exact fun hq => absurd hq hnew
  | call target callee vars kws =>
      rw [Exec.stmt_call_apply, Exec.call_apply] at hq
      cases hp : m.env.request callee vars kws with
      | error e =>
          rw [hp] at hq
          exact absurd hq hnew
      | ok p =>
          rw [hp] at hq
          have hmem : q ∈ m.requests ++ [p.request] := by
            have hdev := Exec.final_settle_device p m (d.recording.answer p.request m.device)
            have hlast : (Exec.final (Exec.settle p m
                (d.recording.answer p.request m.device))).requests = m.requests ++ [p.request] :=
              congrArg Prod.snd hdev
            rw [← hlast]
            revert hq
            simp only
            cases Exec.settle p m (d.recording.answer p.request m.device) <;> exact id
          rcases List.mem_append.mp hmem with hold | hlast
          · exact absurd hold hnew
          · rw [List.mem_singleton] at hlast
            exact ⟨_, p, ⟨target, callee, vars, kws, rest, t, h.unrecorded, hp⟩, hlast.symm⟩

theorem calls_of_body {ss : List Stmt} (h : f.Reaches d.recording args (s, []) ss t m)
    (hq : q ∈ (Exec.final (Exec.body d.recording ss m)).requests) (hnew : q ∉ m.requests) :
    ∃ n p, f.Calls d args s n p ∧ p.request = q := by
  induction ss generalizing m with
  | nil => exact absurd hq hnew
  | cons u ss ih =>
      rw [Exec.body_cons_apply] at hq
      cases hu : Exec.stmt d.recording u m with
      | error e n =>
          rw [hu] at hq
          refine calls_of_stmt h ?_ hnew
          rw [hu]
          exact hq
      | ok _ n =>
          rw [hu] at hq
          by_cases hn : q ∈ n.requests
          · refine calls_of_stmt h ?_ hnew
            rw [hu]
            exact hn
          · exact ih (.step h hu) hq hn

theorem calls_of_blocks {steps : Nat} {l : Label}
    (h : ∀ b, f.block? l = some b → f.Reaches d.recording args (s, []) b.body b.term m)
    (hq : q ∈ (Exec.final (Exec.blocks d.recording f steps l m)).requests)
    (hnew : q ∉ m.requests) : ∃ n p, f.Calls d args s n p ∧ p.request = q := by
  induction steps generalizing l m with
  | zero => exact absurd hq hnew
  | succ steps ih =>
      rw [Exec.blocks_succ_apply] at hq
      cases hb : f.block? l with
      | none =>
          rw [hb] at hq
          exact absurd hq hnew
      | some b =>
          rw [hb] at hq
          simp only at hq
          cases hbody : Exec.body d.recording b.body m with
          | error e n =>
              rw [hbody] at hq
              refine calls_of_body (h b hb) ?_ hnew
              rw [hbody]
              exact hq
          | ok _ n =>
              rw [hbody] at hq
              simp only at hq
              by_cases hn : q ∈ n.requests
              · refine calls_of_body (h b hb) ?_ hnew
                rw [hbody]
                exact hn
              · have hstart : f.Reaches d.recording args (s, []) (b.body ++ []) b.term m := by
                  rw [List.append_nil]
                  exact h b hb
                have hend := hstart.body hbody
                cases hnext : Exec.Next.of n.env b.term with
                | error e =>
                    rw [hnext] at hq
                    exact absurd hq hn
                | ok next =>
                    rw [hnext] at hq
                    cases next with
                    | done v => exact absurd hq hn
                    | goto l' => exact ih (fun b' hb' => .jump hend hnext hb') hq hn

/-- A request of a run is what some call that the run comes to asks for. -/
theorem exists_calls_of_mem_requests (h : q ∈ f.requests d args s) :
    ∃ n p, f.Calls d args s n p ∧ p.request = q := by
  have hend : q ∈ (Exec.final (Exec.blocks d.recording f stepLimit f.entry
      (f.begin args (s, [])))).requests := by
    rw [requests, run_eq_outcome] at h
    revert h
    cases Exec.blocks d.recording f stepLimit f.entry (f.begin args (s, [])) <;> exact id
  exact calls_of_blocks (fun b hb => .start hb) hend (by simp [Machine.requests, begin])

end Function

end SpmdArrays
