import SpmdArrays.Proofs.Spmd.Gathering
import SpmdArrays.Proofs.Spmd.Delivery

/-!
Why the answers of a run of fixed operations do not depend on the interleaving.

Two things make it so. What a rank answers to an operation is fixed by the
programs: by its own operation, by the round of a gather, or by the message whose
turn it is. And how far a rank gets is fixed too: an interleaving in which nobody
can move any more is, rank by rank, at least as far as any other
(`World.behind_of_complete`), because what lets a rank go on in one of them, the
others' arrivals and sends, has happened in the other as well.
-/

namespace SpmdArrays.Spmd

/-! ### Answers that need no other rank -/

/-- The answer of an operation that neither gathers nor receives nor reads the clock. -/
def Op.plain? (r size : Nat) (tickets : List Ticket) (op : Op) : Option Answer :=
  match op.plan r size tickets with
  | .done a => some a
  | .barrier => some .nothing
  | .send .. => some (.ticket (.ok .sent))
  | _ => none

namespace World

variable {size : Nat} {programs : Nat → List Op} {w v : World} {r : Nat} {k : Rank} {op : Op}

/-- An action goes on inside the current operation or completes it; the answer of
a plain operation is the one it always has. -/
theorem Moves.enter_or_finish (hmoves : w.Moves r k op v)
    (hprog : k.OnProgram w.size (programs r)) (hcur : k.op? = some op) :
    (∃ p, v.ranks = w.ranks.set r (k.enter p)) ∨
      ∃ a, v.ranks = w.ranks.set r (k.finish a) ∧
        ∀ b, op.plain? r w.size k.tickets = some b → a = b := by
  have hgather : ∀ {a b : Answer}, k.phase.meeting? = some .gather →
      op.plain? r w.size k.tickets = some b → a = b := by
    intro a b hm hb
    obtain ⟨c, hc⟩ := Op.contribution?_of_meeting? (hprog.meeting?_eq hcur hm)
    rw [Op.plain?, Op.plan_of_contribution? hc] at hb
    cases hb
  have harrive : ∀ {a : Answer} {wait : Nat → Phase},
      (∀ b, op.plain? r w.size k.tickets = some b → a = b) →
      (∃ p, (w.arrive r (k.finish a) fun g => k.enter (wait g)).ranks = w.ranks.set r (k.enter p)) ∨
        ∃ a', (w.arrive r (k.finish a) fun g => k.enter (wait g)).ranks =
            w.ranks.set r (k.finish a') ∧
          ∀ b, op.plain? r w.size k.tickets = some b → a' = b := by
    intro a wait ha
    rcases w.arrive_ranks r (k.finish a) fun g => k.enter (wait g) with h | h
    · exact .inr ⟨a, h, ha⟩
    · exact .inl ⟨_, h⟩
  cases hmoves with
  | done a hphase hplan =>
      refine .inr ⟨a, rfl, fun b hb => ?_⟩
      rw [Op.plain?, hplan] at hb
      exact Option.some.inj hb
  | clock hphase hplan =>
      refine .inr ⟨_, rfl, fun b hb => ?_⟩
      rw [Op.plain?, hplan] at hb
      cases hb
  | barrier hphase hplan =>
      refine harrive fun b hb => ?_
      rw [Op.plain?, hplan] at hb
      exact Option.some.inj hb
  | write c hphase hplan => exact .inl ⟨_, rfl⟩
  | send peer tag m hphase hplan =>
      refine .inr ⟨_, rfl, fun b hb => ?_⟩
      rw [Op.plain?, hplan] at hb
      exact Option.some.inj hb
  | receive source tag m rest hphase hplan hmail =>
      refine .inr ⟨_, rfl, fun b hb => ?_⟩
      rw [Op.plain?, hplan] at hb
      cases hb
  | meet hphase =>
      rcases w.arrive_ranks r (k.enter .ready) fun g => k.enter (.gathering g) with h | h
      · exact .inl ⟨_, h⟩
      · exact .inl ⟨_, h⟩
  | pass g hphase hopen => exact .inl ⟨_, rfl⟩
  | look hphase => exact .inl ⟨_, rfl⟩
  | part slots hphase => exact harrive fun b hb => hgather (by rw [hphase]; rfl) hb
  | leave g slots hphase hopen => exact .inr ⟨_, rfl, fun b hb => hgather (by rw [hphase]; rfl) hb⟩
  | resume g hphase hopen =>
      refine .inr ⟨_, rfl, fun b hb => ?_⟩
      obtain rfl := Op.eq_barrier_of_meeting?
        (hprog.meeting?_eq hcur (m := .barrier) (by rw [hphase]; rfl))
      exact Option.some.inj hb

end World

def Rank.Plain (size : Nat) (program : List Op) (r : Nat) (k : Rank) : Prop :=
  ∀ (i : Nat) (op : Op) (a b : Answer), program[i]? = some op →
    op.plain? r size (ticketsOf size (program.take i)) = some b → k.answers[i]? = some a → a = b

namespace World

variable {size : Nat} {programs : Nat → List Op} {w v : World} {r : Nat} {k : Rank} {op : Op}

def Plain (size : Nat) (programs : Nat → List Op) (w : World) : Prop :=
  ∀ (r : Nat) (k : Rank), w.ranks[r]? = some k → k.Plain size (programs r) r

theorem Plain.step (h : w.Plain size programs) (hprogs : w.OnPrograms size programs)
    (hstep : w.step? r = some v) : v.Plain size programs := by
  obtain ⟨k, op, hk, hcur, hmoves⟩ := moves_of_step? hstep
  have hprog := hprogs.rank hk
  have hset : ∀ {j : Rank}, j.Plain size (programs r) r → v.ranks = w.ranks.set r j →
      v.Plain size programs := by
    intro j hj hranks p kp hp
    rw [hranks] at hp
    exact forall_ranks_set (motive := fun p kp => kp.Plain size (programs p) p) hj
      (fun _ hp => h _ _ hp) hp
  rcases hmoves.enter_or_finish (hprogs.size_eq.symm ▸ hprog) hcur with
    ⟨phase, hranks⟩ | ⟨a, hranks, ha⟩
  · exact hset (j := k.enter phase) (h r k hk) hranks
  · refine hset ?_ hranks
    intro i op' a' b hop hb ha'
    rcases getElem?_concat ha' with hold | ⟨rfl, rfl⟩
    · exact h r k hk i op' a' b hop hb hold
    · cases (hprog.getElem?_program hcur).symm.trans hop
      rw [← hprog.tickets, ← hprogs.size_eq] at hb
      exact ha b hb

theorem plain_of_follow {size : Nat} {programs : List (List Op)} {rs : List Nat}
    (hrun : (start size programs).follow rs = some w) :
    w.Plain (max size 1) fun r => programs.getD r [] := by
  have hstart : (start size programs).Plain (max size 1) fun r => programs.getD r [] := by
    intro r k hk i op a b _ _ ha
    rw [← answered_eq hk, start_answered] at ha
    cases ha
  exact reached_induction hstart
    (fun hrun h hstep => h.step (onPrograms_of_follow hrun) hstep) hrun

/-- What a rank has answered to one operation is the same in any two interleavings. -/
theorem answered_eq_of_follow {size : Nat} {programs : List (List Op)} {rs rs' : List Nat}
    {w w' : World} (haligned : Aligned (max size 1) fun r => programs.getD r [])
    (htime : ∀ r < max size 1, Op.time ∉ programs.getD r [])
    (hrun : (start size programs).follow rs = some w)
    (hrun' : (start size programs).follow rs' = some w') {r i : Nat} {k k' : Rank} {a a' : Answer}
    (hk : w.ranks[r]? = some k) (hk' : w'.ranks[r]? = some k') (ha : k.answers[i]? = some a)
    (ha' : k'.answers[i]? = some a') : a = a' := by
  have hprogs := onPrograms_of_follow hrun
  have hr := hprogs.lt_size hk
  have hi : i < (programs.getD r []).length :=
    Nat.lt_of_lt_of_le (List.getElem?_eq_some_iff.mp ha).1 (hprogs.rank hk).done_le
  have hop := List.getElem?_eq_getElem hi
  generalize (programs.getD r [])[i] = op at hop
  have hstarts := op.plan_starts r (max size 1)
    (ticketsOf (max size 1) ((programs.getD r []).take i))
  have hplain : ∀ {b}, op.plain? r (max size 1)
      (ticketsOf (max size 1) ((programs.getD r []).take i)) = some b → a = a' := fun hb =>
    (plain_of_follow hrun r k hk i op a _ hop hb ha).trans
      (plain_of_follow hrun' r k' hk' i op a' _ hop hb ha').symm
  cases hplan : op.plan r (max size 1) (ticketsOf (max size 1) ((programs.getD r []).take i)) with
  | done b => exact hplain (by rw [Op.plain?, hplan])
  | barrier => exact hplain (by rw [Op.plain?, hplan])
  | send peer tag m => exact hplain (by rw [Op.plain?, hplan])
  | clock =>
      rw [hplan] at hstarts
      cases hstarts
      exact absurd (List.mem_of_getElem? hop) (htime r hr)
  | gather c =>
      rw [hplan] at hstarts
      have h := (inRounds_of_follow haligned hrun).rank hk
      have h' := (inRounds_of_follow haligned hrun').rank hk'
      exact (h.answered hop hstarts ha).1.trans (h'.answered hop hstarts ha').1.symm
  | receive source tag =>
      have hreq : requestAt? (max size 1) (programs.getD r []) i = some (source, tag) := by
        rw [requestAt?, hop, Option.bind_some]
        exact Op.request?_of_plan hplan
      obtain ⟨s, hs, rfl⟩ := exists_rank_of_requestAt? hreq
      rw [← answered_eq hk] at ha
      rw [← answered_eq hk'] at ha'
      obtain ⟨m, hm, op₁, hop₁, hans⟩ := (delivers_of_follow hrun).received hs hr hreq
        (List.getElem?_eq_some_iff.mp ha).1
      obtain ⟨m', hm', op₂, hop₂, hans'⟩ := (delivers_of_follow hrun').received hs hr hreq
        (List.getElem?_eq_some_iff.mp ha').1
      cases hop₁.symm.trans hop₂
      cases hm.symm.trans hm'
      exact Option.some.inj (ha.symm.trans (hans.trans (hans'.symm.trans ha')))

end World

/-! ### How far a rank is -/

theorem Phase.left_le (p : Phase) : p.left ≤ Phase.start.left := by
  cases p <;> simp [Phase.left]

theorem Phase.eq_start_of_left {p : Phase} (h : Phase.start.left ≤ p.left) : p = .start := by
  cases p <;> simp_all [Phase.left]

theorem Phase.arrivals_mono {p q : Phase}
    (hmeeting : p.meeting? = none ∨ q.meeting? = none ∨ p.meeting? = q.meeting?)
    (hleft : q.left ≤ p.left) : p.arrivals ≤ q.arrivals := by
  cases p <;> cases q <;> simp_all [Phase.left, Phase.arrivals, Phase.meeting?]

theorem Phase.left_eq_of_blocked {p q : Phase} {g h : Nat} (hmeeting : p.meeting? = q.meeting?)
    (hp : p.blocked? = some g) (hq : q.blocked? = some h) (harrivals : p.arrivals = q.arrivals) :
    p.left = q.left := by
  cases p <;> cases q <;> simp_all [Phase.left, Phase.arrivals, Phase.meeting?, Phase.blocked?]

namespace Rank

variable {size : Nat} {program : List Op} {j k : Rank}

/-- The first rank is not further than the second, on one program. -/
def Behind (j k : Rank) : Prop :=
  j.answers.length < k.answers.length ∨
    j.answers.length = k.answers.length ∧ k.phase.left ≤ j.phase.left

theorem OnProgram.phase_meeting?_eq (hj : j.OnProgram size program) (hk : k.OnProgram size program)
    (hlen : j.answers.length = k.answers.length) :
    j.phase.meeting? = none ∨ k.phase.meeting? = none ∨
      j.phase.meeting? = k.phase.meeting? := by
  cases hm : j.phase.meeting? with
  | none => exact .inl rfl
  | some m =>
      cases hn : k.phase.meeting? with
      | none => exact .inr (.inl rfl)
      | some n =>
          obtain ⟨op, hcur, hop⟩ := hj.phase hm
          have hcur' : k.op? = some op := by rw [hk.op?_eq, ← hlen, ← hj.op?_eq, hcur]
          rw [← hop, hk.meeting?_eq hcur' hn]
          exact .inr (.inr rfl)

theorem OnProgram.arrivals_le_take (h : k.OnProgram size program) {n : Nat}
    (hn : k.answers.length < n) :
    k.arrivals program ≤ Spmd.arrivals (meetings (program.take n)) := by
  have hmono : ∀ {m}, m ≤ n → Spmd.arrivals (meetings (program.take m)) ≤
      Spmd.arrivals (meetings (program.take n)) := fun hm =>
    arrivals_le_arrivals ((List.take_prefix_take_left hm).filterMap _)
  cases hm : k.phase.meeting? with
  | none =>
      rw [arrivals_of_phase (Phase.eq_start hm)]
      exact hmono (Nat.le_of_lt hn)
  | some m =>
      obtain ⟨op, hcur, hop⟩ := h.phase hm
      refine Nat.le_trans ?_ (hmono hn)
      have hphase := k.phase.arrivals_le
      rw [hm, ← hop] at hphase
      rw [Nat.succ_eq_add_one, h.take_succ hcur, meetings, filterMap_concat, arrivals_append,
        ← meetings, arrivals]
      omega

theorem OnProgram.arrivals_mono (hj : j.OnProgram size program) (hk : k.OnProgram size program)
    (hbehind : j.Behind k) : j.arrivals program ≤ k.arrivals program := by
  rcases hbehind with hlt | ⟨hlen, hleft⟩
  · exact Nat.le_trans (hj.arrivals_le_take hlt) (Nat.le_add_right _ _)
  · have hphase := Phase.arrivals_mono (hj.phase_meeting?_eq hk hlen) hleft
    rw [arrivals, arrivals, hlen]
    omega

end Rank

/-! ### Complete interleavings -/

namespace World

variable {size : Nat} {programs : Nat → List Op} {u v w : World} {r : Nat} {j k : Rank} {op : Op}

/-- Nobody can move. -/
def Complete (w : World) : Prop := ∀ r, w.step? r = none

/-- A rank that cannot move waits for the barrier to open or for a message. -/
theorem waits_of_step?_eq_none (h : w.step? r = none) (hk : w.ranks[r]? = some k)
    (hcur : k.op? = some op) :
    k.phase.blocked? = some w.generation ∨
      k.phase = .start ∧ ∃ source tag, op.plan r w.size k.tickets = .receive source tag ∧
        w.mail ⟨source, r, tag⟩ = [] := by
  simp only [step?, hk, hcur] at h
  split at h
  · rename_i hphase
    refine .inr ⟨hphase, ?_⟩
    unfold begin at h
    split at h
    case h_6 source tag hplan =>
      refine ⟨source, tag, hplan, ?_⟩
      simp only at h
      split at h
      · assumption
      · cases h
    all_goals cases h
  · cases h
  · rename_i g hphase
    split at h
    · rename_i hg
      rw [hphase, hg]
      exact .inl rfl
    · cases h
  · cases h
  · cases h
  · rename_i g slots hphase
    split at h
    · rename_i hg
      rw [hphase, hg]
      exact .inl rfl
    · cases h
  · rename_i g hphase
    split at h
    · rename_i hg
      rw [hphase, hg]
      exact .inl rfl
    · cases h

theorem InStep.exists_not_waiting (h : w.InStep programs) :
    ∃ (q : Nat) (kq : Rank), w.ranks[q]? = some kq ∧ kq.phase.blocked? ≠ some w.generation := by
  have hne : w.ranks.countP (Rank.waitsFor w.generation) ≠ w.ranks.length := by
    have hlt := h.arrived_lt
    rw [h.arrived, World.size] at hlt
    omega
  rw [ne_eq, List.countP_eq_length, Classical.not_forall] at hne
  obtain ⟨kq, hne⟩ := hne
  rw [Classical.not_imp] at hne
  obtain ⟨q, hq⟩ := List.mem_iff_getElem?.mp hne.1
  exact ⟨q, kq, hq, by simpa [Rank.waitsFor] using hne.2⟩

/-- Where a rank waits for the barrier to open, the rank is no further in a world in
which no other rank is further. -/
theorem behind_of_blocked (hw : w.InStep programs) (hv : v.InStep programs)
    (hwprogs : w.OnPrograms size programs) (hvprogs : v.OnPrograms size programs)
    (hj : v.ranks[r]? = some j) (hk : w.ranks[r]? = some k)
    (hblocked : k.phase.blocked? = some w.generation)
    (hothers : ∀ {q : Nat} {jq kq : Rank}, q ≠ r → v.ranks[q]? = some jq →
      w.ranks[q]? = some kq → jq.Behind kq) : j.Behind k := by
  -- a rank that does not wait bounds how often the barrier has opened in the other world
  obtain ⟨q, kq, hkq, hfree⟩ := hw.exists_not_waiting
  have hqr : q ≠ r := by
    rintro rfl
    cases hkq.symm.trans hk
    exact hfree hblocked
  obtain ⟨jq, hjq⟩ := hvprogs.exists_rank (hwprogs.lt_size hkq)
  have hgen : v.generation ≤ w.generation :=
    calc v.generation ≤ jq.arrivals (programs q) := (hv.rank hjq).bounds.1
      _ ≤ kq.arrivals (programs q) :=
        (hvprogs.rank hjq).arrivals_mono (hwprogs.rank hkq) (hothers hqr hjq hkq)
      _ = w.generation := (hw.rank hkq).arrivals_eq hfree
  have hjprog := hvprogs.rank hj
  have hkprog := hwprogs.rank hk
  have hkarr := ((Rank.keepsStep_of_blocked hblocked).mp (hw.rank hk)).1
  obtain ⟨-, hjle, hjwaits⟩ := (hv.rank hj).bounds
  refine Classical.byContradiction fun hnot => ?_
  simp only [Rank.Behind, not_or, not_and, Nat.not_lt, Nat.not_le] at hnot
  obtain ⟨hlen, hleft⟩ := hnot
  rcases Nat.lt_or_eq_of_le hlen with hlt | heq
  · -- the other world's rank has left the meeting and waits for the next
    have htake := hkprog.arrivals_le_take hlt
    have harr : j.arrivals (programs r) =
      arrivals (meetings ((programs r).take j.answers.length)) + j.phase.arrivals := rfl
    omega
  · -- both wait in the same meeting, for the same arrival
    have hjk := hkprog.arrivals_mono hjprog (.inr ⟨heq, Nat.le_of_lt (hleft heq.symm)⟩)
    have harr : j.arrivals (programs r) = v.generation + 1 := by omega
    cases hjb : j.phase.blocked? with
    | none =>
        have := (Rank.keepsStep_of_free hjb).mp (hv.rank hj)
        omega
    | some g =>
        have hmeeting : j.phase.meeting? = k.phase.meeting? := by
          rcases hjprog.phase_meeting?_eq hkprog heq.symm with h | h | h
          · rw [Phase.eq_start h] at hjb
            cases hjb
          · rw [Phase.eq_start h] at hblocked
            cases hblocked
          · exact h
        have hphases : j.phase.arrivals = k.phase.arrivals := by
          simp only [Rank.arrivals, heq] at harr hkarr hjk
          omega
        have := Phase.left_eq_of_blocked hmeeting hjb hblocked hphases
        have := hleft heq.symm
        omega

/-- A rank that waits for a message in vain cannot receive it in a world in which
nobody is further. -/
theorem step?_eq_none_of_starved {history history' : Mailbox → List Message}
    (hw : w.Delivers size programs history) (hu : u.Delivers size programs history')
    (hwprogs : w.OnPrograms size programs) (huprogs : u.OnPrograms size programs)
    (hj : u.ranks[r]? = some j) (hk : w.ranks[r]? = some k) (hphase : j.phase = .start)
    (hcur : j.op? = some op) (hlen : j.answers.length = k.answers.length)
    {source tag : Int} (hplan : op.plan r size j.tickets = .receive source tag)
    (hmail : w.mail ⟨source, r, tag⟩ = [])
    (hbehind : ∀ {q : Nat} {jq kq : Rank}, u.ranks[q]? = some jq → w.ranks[q]? = some kq →
      jq.Behind kq) : u.step? r = none := by
  have hr := hwprogs.lt_size hk
  have hprog := huprogs.rank hj
  have hreq : requestAt? size (programs r) j.answers.length = some (source, tag) := by
    rw [requestAt?, hprog.getElem?_program hcur, Option.bind_some, ← hprog.tickets]
    exact Op.request?_of_plan hplan
  obtain ⟨s, hs, rfl⟩ := exists_rank_of_requestAt? hreq
  obtain ⟨js, hjs⟩ := huprogs.exists_rank hs
  obtain ⟨ks, hks⟩ := hwprogs.exists_rank hs
  have hu := hu s r tag hs hr
  have hw := hw s r tag hs hr
  -- as many waits are completed in both worlds, and no more messages are sent in `u`
  have hsent : (u.sent programs s r tag).length ≤ (w.sent programs s r tag).length := by
    have hle : js.answers.length ≤ ks.answers.length := by
      rcases hbehind hjs hks with h | h <;> omega
    rw [sent, sent, answered_eq hjs, answered_eq hks]
    exact ((List.take_prefix_take_left hle).filterMap _).length_le
  have hwaits : u.waited size programs s r tag = w.waited size programs s r tag := by
    rw [waited, waited, answered_eq hj, answered_eq hk, hlen]
  have hnil : u.mail ⟨s, r, tag⟩ = [] := by
    have hulen := hu.length_eq
    have hwlen := hw.length_eq
    rw [hu.sent_eq, hw.sent_eq, hmail, List.append_nil, List.length_append] at hsent
    rw [hwaits] at hulen
    exact List.length_eq_zero_iff.mp (by omega)
  rw [← huprogs.size_eq] at hplan
  simp only [step?, hj, hcur, hphase, begin, hplan, hnil]

/-- An action does not take a rank further than it is in a complete world. -/
theorem behind_step {history history' : Mailbox → List Message} (hwin : w.InStep programs)
    (hw : w.Delivers size programs history) (hwprogs : w.OnPrograms size programs)
    (hcomplete : w.Complete) (huin : u.InStep programs) (hu : u.Delivers size programs history')
    (huprogs : u.OnPrograms size programs)
    (hbehind : ∀ {q : Nat} {jq kq : Rank}, u.ranks[q]? = some jq → w.ranks[q]? = some kq →
      jq.Behind kq) (hstep : u.step? r = some v) {q : Nat} {jq kq : Rank}
    (hjq : v.ranks[q]? = some jq) (hkq : w.ranks[q]? = some kq) : jq.Behind kq := by
  obtain ⟨j, op, hj, hcur, hmoves⟩ := moves_of_step? hstep
  have hprog := huprogs.rank hj
  obtain ⟨j', hranks, hplace⟩ : ∃ j', v.ranks = u.ranks.set r j' ∧
      ((∃ p, j' = j.enter p) ∨ ∃ a, j' = j.finish a) := by
    rcases hmoves.enter_or_finish (huprogs.size_eq.symm ▸ hprog) hcur with ⟨p, h⟩ | ⟨a, h, -⟩
    · exact ⟨_, h, .inl ⟨p, rfl⟩⟩
    · exact ⟨_, h, .inr ⟨a, rfl⟩⟩
  have hothers : ∀ {q : Nat} {jq kq : Rank}, q ≠ r → v.ranks[q]? = some jq →
      w.ranks[q]? = some kq → jq.Behind kq := by
    intro q jq kq hqr hjq hkq
    rw [hranks, List.getElem?_set_ne (Ne.symm hqr)] at hjq
    exact hbehind hjq hkq
  by_cases hqr : q = r
  · subst hqr
    refine Classical.byContradiction fun hnot => hnot ?_
    have hlt := (List.getElem?_eq_some_iff.mp hj).1
    have hj' : jq = j' := by
      rw [hranks, List.getElem?_set_self hlt] at hjq
      exact (Option.some.inj hjq).symm
    -- the action starts from the operation that the complete world is at
    have hlen : j.answers.length = kq.answers.length := by
      have hb := hbehind hj hkq
      have hleft := kq.phase.left_le
      rw [hj'] at hnot
      rcases hplace with ⟨p, rfl⟩ | ⟨a, rfl⟩
      · simp only [Rank.Behind, Rank.enter] at hb hnot
        omega
      · simp only [Rank.Behind, Rank.length_answers_finish] at hb hnot
        have hstart : (j.finish a).phase = .start := rfl
        rw [hstart] at hnot
        omega
    have hkprog := hwprogs.rank hkq
    have hcur' : kq.op? = some op := by rw [hkprog.op?_eq, ← hlen, ← hprog.op?_eq, hcur]
    rcases waits_of_step?_eq_none (hcomplete q) hkq hcur' with
      hblocked | ⟨hphase, source, tag, hplan, hmail⟩
    · exact behind_of_blocked hwin (huin.step huprogs hstep) hwprogs (huprogs.step hstep) hjq hkq
        hblocked hothers
    · have hjphase : j.phase = .start := by
        rcases hbehind hj hkq with h | ⟨-, hleft⟩
        · omega
        · rw [hphase] at hleft
          exact Phase.eq_start_of_left hleft
      rw [hwprogs.size_eq, hkprog.tickets, ← hlen, ← hprog.tickets] at hplan
      have hnone := step?_eq_none_of_starved hw hu hwprogs huprogs hj hkq hjphase hcur hlen hplan
        hmail hbehind
      cases hnone.symm.trans hstep
  · exact hothers hqr hjq hkq

/-- No interleaving takes a rank further than a complete one. -/
theorem behind_of_complete {size : Nat} {programs : List (List Op)} {rs rs' : List Nat}
    (hrun : (start size programs).follow rs = some w) (hcomplete : w.Complete)
    (hrun' : (start size programs).follow rs' = some u) {r : Nat} {j k : Rank}
    (hj : u.ranks[r]? = some j) (hk : w.ranks[r]? = some k) : j.Behind k := by
  have hwprogs := onPrograms_of_follow hrun
  have hwin := inStep_of_follow hrun
  have hw := delivers_of_follow hrun
  refine reached_induction (motive := fun u =>
    ∀ (r : Nat) (j k : Rank), u.ranks[r]? = some j → w.ranks[r]? = some k → j.Behind k)
    ?_ ?_ hrun' r j k hj hk
  · intro r j k hj hk
    simp only [start, launch, List.getElem?_map, Option.map_eq_some_iff] at hj
    obtain ⟨p, -, rfl⟩ := hj
    rcases Nat.eq_zero_or_pos k.answers.length with hzero | hpos
    · exact .inr ⟨hzero.symm, k.phase.left_le⟩
    · exact .inl hpos
  · intro u v r rs hrun hbehind hstep q jq kq
    exact behind_step hwin hw hwprogs hcomplete (inStep_of_follow hrun) (delivers_of_follow hrun)
      (onPrograms_of_follow hrun) (hbehind _ _ _) hstep

end World

end SpmdArrays.Spmd
