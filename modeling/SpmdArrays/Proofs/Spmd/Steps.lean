import SpmdArrays.Spmd.World

/-!
Interleavings of the ranks' actions, and what every one of them keeps.

An interleaving is the list of the ranks that act, one after another. What an
action does is said once (`World.Moves`). Whatever the interleaving, a rank goes
through its program from the front: it has one answer for each operation it has
done, and the tickets it holds are those of the operations it has done
(`World.OnPrograms`). So what a rank does next depends on its program and on how
far it is, and on the others only through the barrier, the slots and the mail.
-/

namespace SpmdArrays.Spmd

/-! ### What an operation needs of the other ranks -/

/-- The two ways in which all ranks meet. -/
inductive Meeting where
  | barrier
  | gather
  deriving DecidableEq, Repr

def Op.contribution? : Op → Option Contribution
  | .reduce t v => some (.scalar t v)
  | .exclusiveScan t v => some (.scalar t v)
  | .arrayReduce t data => some (.vector t data)
  | .cumulativeSum t input output =>
    if output.length < input.length then none
    else
      match t.sum input with
      | .error _ => none
      | .ok total => some (.scalar t total)
  | _ => none

def Op.meeting? : Op → Option Meeting
  | .barrier => some .barrier
  | op => op.contribution?.map fun _ => .gather

/-- The ticket that an operation leaves; a peer that is no rank leaves one that
has nothing to wait for. -/
def Op.ticket? (size : Nat) : Op → Option Ticket
  | .send _ _ peer _ cond =>
    some (if cond ∧ 0 ≤ peer ∧ peer < size then .sent else .skipped)
  | .receive peer tag cond =>
    some (if cond ∧ 0 ≤ peer ∧ peer < size then .receive peer tag else .skipped)
  | _ => none

def meetings (ops : List Op) : List Meeting := ops.filterMap Op.meeting?

def contributions (ops : List Op) : List Contribution := ops.filterMap Op.contribution?

def ticketsOf (size : Nat) (ops : List Op) : List Ticket := ops.filterMap (Op.ticket? size)

/-- What the first move of an operation says about the operation. -/
def Plan.Starts (size : Nat) (tickets : List Ticket) (op : Op) : Plan → Prop
  | .done a => op.meeting? = none ∧ a.ticket? = op.ticket? size
  | .clock => op = .time
  | .barrier => op = .barrier
  | .gather c => op.contribution? = some c
  | .send peer tag m => op = .send m.elem m.data peer tag true ∧ 0 ≤ peer ∧ peer < size
  | .receive source tag =>
    ∃ k t buffer, op = .wait k t buffer true ∧ tickets[k]? = some (.receive source tag)

theorem filterMap_concat {α β : Type} (f : α → Option β) (xs : List α) (x : α) :
    (xs ++ [x]).filterMap f = xs.filterMap f ++ (f x).toList := by
  rw [List.filterMap_append]
  cases h : f x <;> simp [h]

theorem getElem?_concat {α : Type} {xs : List α} {x y : α} {i : Nat}
    (h : (xs ++ [x])[i]? = some y) : xs[i]? = some y ∨ i = xs.length ∧ y = x := by
  rw [List.getElem?_append] at h
  split at h
  · exact .inl h
  · obtain ⟨hlt, hget⟩ := List.getElem?_eq_some_iff.mp h
    rw [List.length_singleton] at hlt
    rw [List.getElem_singleton] at hget
    exact .inr ⟨by omega, hget.symm⟩

theorem filterMap_getElem?_of_getElem? {α β : Type} {f : α → Option β} {xs : List α} {i : Nat}
    {x : α} {b : β} (hx : xs[i]? = some x) (hb : f x = some b) :
    (xs.filterMap f)[((xs.take i).filterMap f).length]? = some b := by
  obtain ⟨hlt, rfl⟩ := List.getElem?_eq_some_iff.mp hx
  have hsplit : xs.filterMap f = (xs.take i).filterMap f ++ b :: (xs.drop (i + 1)).filterMap f := by
    rw [← List.filterMap_cons_some hb, ← List.filterMap_append, ← List.drop_eq_getElem_cons hlt,
      List.take_append_drop]
  rw [hsplit, List.getElem?_append_right (Nat.le_refl _), Nat.sub_self, List.getElem?_cons_zero]

namespace Op

variable {op : Op} {r size : Nat} {tickets : List Ticket}

theorem plan_starts (op : Op) (r size : Nat) (tickets : List Ticket) :
    (op.plan r size tickets).Starts size tickets op := by
  cases op with
  | cumulativeSum t input output =>
      simp only [plan]
      split
      · rename_i hlen
        simp [Plan.Starts, meeting?, contribution?, hlen, Answer.ticket?, ticket?]
      · rename_i hlen
        cases hsum : t.sum input <;>
          simp [Plan.Starts, meeting?, contribution?, hlen, hsum, Answer.ticket?, ticket?]
  | send t data peer tag cond =>
      cases cond with
      | false => exact ⟨rfl, rfl⟩
      | true =>
          simp only [plan, checkPeer]
          by_cases hpeer : 0 ≤ peer ∧ peer < size
          · simp [Plan.Starts, hpeer]
          · simp [Plan.Starts, hpeer, meeting?, contribution?, Answer.ticket?, ticket?]
  | receive peer tag cond =>
      cases cond with
      | false => exact ⟨rfl, rfl⟩
      | true =>
          simp only [plan, checkPeer]
          by_cases hpeer : 0 ≤ peer ∧ peer < size <;>
            simp [Plan.Starts, hpeer, meeting?, contribution?, Except.map, Answer.ticket?, ticket?]
  | wait k t buffer cond =>
      simp only [plan]
      split
      · rename_i htick
        exact ⟨k, t, buffer, rfl, htick⟩
      · exact ⟨rfl, rfl⟩
  | _ => simp [plan, Plan.Starts, meeting?, contribution?, Answer.ticket?, ticket?]

theorem plan_of_contribution? {c : Contribution} (h : op.contribution? = some c) :
    op.plan r size tickets = .gather c := by
  cases op with
  | cumulativeSum t input output =>
      simp only [contribution?] at h
      split at h
      · cases h
      · rename_i hlen
        cases hsum : t.sum input <;> simp_all [plan]
  | _ => simp_all [plan, contribution?]

theorem plan_send {t : ElementType} {data : List t.Carrier} {peer tag : Int}
    (hpeer : 0 ≤ peer ∧ peer < size) :
    (Op.send t data peer tag true).plan r size tickets = .send peer tag ⟨t, data⟩ := by
  simp [plan, checkPeer, hpeer]

theorem plan_wait {k : Nat} {t : ElementType} {buffer : List t.Carrier} {source tag : Int}
    (htick : tickets[k]? = some (.receive source tag)) :
    (Op.wait k t buffer true).plan r size tickets = .receive source tag := by
  simp only [plan, htick]

theorem meeting?_of_contribution? {c : Contribution} (h : op.contribution? = some c) :
    op.meeting? = some .gather := by
  cases op <;> simp_all [meeting?, contribution?]

theorem contribution?_eq_none (h : op.meeting? ≠ some .gather) : op.contribution? = none := by
  cases hc : op.contribution? with
  | none => rfl
  | some c => exact absurd (meeting?_of_contribution? hc) h

theorem contribution?_of_meeting? (h : op.meeting? = some .gather) :
    ∃ c, op.contribution? = some c := by
  cases op <;> simp_all [meeting?, contribution?]

theorem eq_barrier_of_meeting? (h : op.meeting? = some .barrier) : op = .barrier := by
  cases op <;> first | rfl | simp [meeting?] at h

theorem ticket?_gathered (slots : Slots) : (op.gathered r slots).ticket? = none := by
  cases op <;> rfl

theorem ticket?_of_meeting? {m : Meeting} (h : op.meeting? = some m) : op.ticket? size = none := by
  cases op <;> first | rfl | cases h

end Op

/-! ### Interleavings -/

namespace World

/-- The world after the ranks of the list have acted one after another; `none` if
one of them could not. -/
def follow (w : World) : List Nat → Option World
  | [] => some w
  | r :: rs =>
    match w.step? r with
    | none => none
    | some v => v.follow rs

/-- What every action keeps, every interleaving keeps. -/
theorem follow_induction {motive : World → Prop}
    (hstep : ∀ {w v : World} {r : Nat}, motive w → w.step? r = some v → motive v)
    {w v : World} {rs : List Nat} (h : w.follow rs = some v) (hw : motive w) : motive v := by
  induction rs generalizing w with
  | nil =>
      cases h
      exact hw
  | cons r rs ih =>
      simp only [follow] at h
      split at h
      · cases h
      · rename_i u hu
        exact ih h (hstep hw hu)

theorem follow_concat {u v w : World} {r : Nat} {rs : List Nat} (h : u.follow rs = some v)
    (hstep : v.step? r = some w) : u.follow (rs ++ [r]) = some w := by
  induction rs generalizing u with
  | nil =>
      cases h
      simp [follow, hstep]
  | cons p rs ih =>
      simp only [List.cons_append, follow] at h ⊢
      split at h
      · cases h
      · exact ih h

/-- An action may be known to come somewhere on the way, so that what was shown of all
interleavings before can be used of the world that it starts from. -/
theorem reached_induction {u : World} {motive : World → Prop} (hu : motive u)
    (hstep : ∀ {w v : World} {r : Nat} {rs : List Nat},
      u.follow rs = some w → motive w → w.step? r = some v → motive v)
    {w : World} {rs : List Nat} (h : u.follow rs = some w) : motive w := by
  refine (follow_induction (motive := fun w => (∃ qs, u.follow qs = some w) ∧ motive w) ?_ h
    ⟨⟨[], rfl⟩, hu⟩).2
  rintro w v r ⟨⟨qs, hqs⟩, hw⟩ hv
  exact ⟨⟨_, follow_concat hqs hv⟩, hstep hqs hw hv⟩

/-- What one action of rank `r`, whose state is `k` and whose current operation
is `op`, can make of the world. -/
inductive Moves (w : World) (r : Nat) (k : Rank) (op : Op) : World → Prop
  | done (a : Answer) (hphase : k.phase = .start)
      (hplan : op.plan r w.size k.tickets = .done a) :
      Moves w r k op (w.setRank r (k.finish a))
  | clock (hphase : k.phase = .start) (hplan : op.plan r w.size k.tickets = .clock) :
      Moves w r k op (w.setRank r (k.finish (.time w.clock)))
  | barrier (hphase : k.phase = .start) (hplan : op.plan r w.size k.tickets = .barrier) :
      Moves w r k op (w.arrive r (k.finish .nothing) fun g => k.enter (.waiting g))
  | write (c : Contribution) (hphase : k.phase = .start)
      (hplan : op.plan r w.size k.tickets = .gather c) :
      Moves w r k op { w.setRank r (k.enter .written) with slots := w.slots.set r (some c) }
  | send (peer tag : Int) (m : Message) (hphase : k.phase = .start)
      (hplan : op.plan r w.size k.tickets = .send peer tag m) :
      Moves w r k op ((w.setRank r (k.finish (.ticket (.ok .sent)))).setMail ⟨r, peer, tag⟩
        (w.mail ⟨r, peer, tag⟩ ++ [m]))
  | receive (source tag : Int) (m : Message) (rest : List Message) (hphase : k.phase = .start)
      (hplan : op.plan r w.size k.tickets = .receive source tag)
      (hmail : w.mail ⟨source, r, tag⟩ = m :: rest) :
      Moves w r k op
        ((w.setRank r (k.finish (op.received r source m))).setMail ⟨source, r, tag⟩ rest)
  | meet (hphase : k.phase = .written) :
      Moves w r k op (w.arrive r (k.enter .ready) fun g => k.enter (.gathering g))
  | pass (g : Nat) (hphase : k.phase = .gathering g) (hopen : w.generation ≠ g) :
      Moves w r k op (w.setRank r (k.enter .ready))
  | look (hphase : k.phase = .ready) : Moves w r k op (w.setRank r (k.enter (.read w.slots)))
  | part (slots : Slots) (hphase : k.phase = .read slots) :
      Moves w r k op
        (w.arrive r (k.finish (op.gathered r slots)) fun g => k.enter (.leaving g slots))
  | leave (g : Nat) (slots : Slots) (hphase : k.phase = .leaving g slots)
      (hopen : w.generation ≠ g) :
      Moves w r k op (w.setRank r (k.finish (op.gathered r slots)))
  | resume (g : Nat) (hphase : k.phase = .waiting g) (hopen : w.generation ≠ g) :
      Moves w r k op (w.setRank r (k.finish .nothing))

theorem moves_of_begin {w v : World} {r : Nat} {k : Rank} {op : Op} (hphase : k.phase = .start)
    (h : w.begin r k op = some v) : w.Moves r k op v := by
  unfold begin at h
  split at h
  · rename_i a hplan
    cases h
    exact .done a hphase hplan
  · rename_i hplan
    cases h
    exact .clock hphase hplan
  · rename_i hplan
    cases h
    exact .barrier hphase hplan
  · rename_i c hplan
    cases h
    exact .write c hphase hplan
  · rename_i peer tag m hplan
    cases h
    exact .send peer tag m hphase hplan
  · rename_i source tag hplan
    simp only at h
    split at h
    · cases h
    · rename_i m rest hmail
      cases h
      exact .receive source tag m rest hphase hplan hmail

theorem moves_of_step? {w v : World} {r : Nat} (h : w.step? r = some v) :
    ∃ k op, w.ranks[r]? = some k ∧ k.op? = some op ∧ w.Moves r k op v := by
  unfold step? at h
  split at h
  · cases h
  · rename_i k hk
    split at h
    · cases h
    · rename_i op hcur
      refine ⟨k, op, hk, hcur, ?_⟩
      split at h
      · rename_i hphase
        exact moves_of_begin hphase h
      · rename_i hphase
        cases h
        exact .meet hphase
      · rename_i g hphase
        split at h
        · cases h
        · rename_i hopen
          cases h
          exact .pass g hphase hopen
      · rename_i hphase
        cases h
        exact .look hphase
      · rename_i slots hphase
        cases h
        exact .part slots hphase
      · rename_i g slots hphase
        split at h
        · cases h
        · rename_i hopen
          cases h
          exact .leave g slots hphase hopen
      · rename_i g hphase
        split at h
        · cases h
        · rename_i hopen
          cases h
          exact .resume g hphase hopen

@[simp] theorem setRank_ranks (w : World) (r : Nat) (k : Rank) :
    (w.setRank r k).ranks = w.ranks.set r k := rfl

theorem arrive_ranks (w : World) (r : Nat) (through : Rank) (wait : Nat → Rank) :
    (w.arrive r through wait).ranks = w.ranks.set r through ∨
      (w.arrive r through wait).ranks = w.ranks.set r (wait w.generation) := by
  unfold arrive
  split
  · exact .inr rfl
  · exact .inl rfl

end World

/-! ### Ranks go through their programs -/

def Phase.meeting? : Phase → Option Meeting
  | .start => none
  | .waiting _ => some .barrier
  | _ => some .gather

theorem Phase.eq_start {p : Phase} (h : p.meeting? = none) : p = .start := by
  cases p <;> first | rfl | cases h

/-- A rank that is somewhere on its program. -/
structure Rank.OnProgram (size : Nat) (program : List Op) (k : Rank) : Prop where
  program_eq : k.program = .ofOps program
  done_le : k.answers.length ≤ program.length
  tickets : k.tickets = ticketsOf size (program.take k.answers.length)
  phase : ∀ {m}, k.phase.meeting? = some m → ∃ op, k.op? = some op ∧ op.meeting? = some m

namespace Rank

variable {size : Nat} {program : List Op} {k : Rank} {op : Op}

@[simp] theorem length_answers_finish (k : Rank) (a : Answer) :
    (k.finish a).answers.length = k.answers.length + 1 := by
  simp [finish]

theorem OnProgram.meeting?_eq (h : k.OnProgram size program) (hcur : k.op? = some op)
    {m : Meeting} (hm : k.phase.meeting? = some m) : op.meeting? = some m := by
  obtain ⟨op', hcur', hm'⟩ := h.phase hm
  cases hcur.symm.trans hcur'
  exact hm'

theorem OnProgram.phase_eq_start (h : k.OnProgram size program) (hcur : k.op? = some op)
    (hop : op.meeting? = none) : k.phase = .start := by
  cases hm : k.phase.meeting? with
  | none => exact Phase.eq_start hm
  | some m => cases hop.symm.trans (h.meeting?_eq hcur hm)

theorem OnProgram.op?_eq (h : k.OnProgram size program) : k.op? = program[k.answers.length]? := by
  rw [op?, h.program_eq, Program.op?_ofOps]

theorem OnProgram.getElem?_program (h : k.OnProgram size program) (hcur : k.op? = some op) :
    program[k.answers.length]? = some op := h.op?_eq.symm.trans hcur

theorem OnProgram.take_succ (h : k.OnProgram size program) (hcur : k.op? = some op) :
    program.take (k.answers.length + 1) = program.take k.answers.length ++ [op] := by
  rw [List.take_add_one, h.getElem?_program hcur, Option.toList_some]

theorem OnProgram.finish (h : k.OnProgram size program) (hcur : k.op? = some op)
    {a : Answer} (ha : a.ticket? = op.ticket? size) : (k.finish a).OnProgram size program where
  program_eq := h.program_eq
  done_le := by
    have hlt := (List.getElem?_eq_some_iff.mp (h.getElem?_program hcur)).1
    rw [length_answers_finish]
    omega
  tickets := by
    rw [length_answers_finish, h.take_succ hcur, ticketsOf, filterMap_concat, ← ha,
      ← ticketsOf, ← h.tickets]
    rfl
  phase := fun hm => by cases hm

theorem OnProgram.enter (h : k.OnProgram size program) (hcur : k.op? = some op) {p : Phase}
    (hp : p.meeting? = op.meeting?) : (k.enter p).OnProgram size program where
  program_eq := h.program_eq
  done_le := h.done_le
  tickets := h.tickets
  phase := fun hm => ⟨op, hcur, hp.symm.trans hm⟩

end Rank

namespace World

structure OnPrograms (size : Nat) (programs : Nat → List Op) (w : World) : Prop where
  size_eq : w.size = size
  rank : ∀ {r : Nat} {k : Rank}, w.ranks[r]? = some k → k.OnProgram size (programs r)

variable {size : Nat} {programs : Nat → List Op} {w v : World} {r : Nat} {k : Rank} {op : Op}

theorem OnPrograms.lt_size (h : w.OnPrograms size programs) (hk : w.ranks[r]? = some k) :
    r < size := by
  rw [← h.size_eq]
  exact (List.getElem?_eq_some_iff.mp hk).1

theorem OnPrograms.exists_rank (h : w.OnPrograms size programs) (hr : r < size) :
    ∃ k, w.ranks[r]? = some k := by
  rw [← h.size_eq] at hr
  exact ⟨_, List.getElem?_eq_getElem hr⟩

theorem OnPrograms.of_set (h : w.OnPrograms size programs) {k' : Rank}
    (hranks : v.ranks = w.ranks.set r k') (hk' : k'.OnProgram size (programs r)) :
    v.OnPrograms size programs where
  size_eq := by rw [World.size, hranks, List.length_set]; exact h.size_eq
  rank := by
    intro p kp hp
    rw [hranks, List.getElem?_set] at hp
    split at hp
    · rename_i hrp
      subst hrp
      split at hp
      · cases hp
        exact hk'
      · cases hp
    · exact h.rank hp

theorem Moves.exists_onProgram (hmoves : w.Moves r k op v) (hk : k.OnProgram w.size (programs r))
    (hcur : k.op? = some op) :
    ∃ k', v.ranks = w.ranks.set r k' ∧ k'.OnProgram w.size (programs r) := by
  have hstarts := op.plan_starts r w.size k.tickets
  have hmeet : ∀ {m}, k.phase.meeting? = some m → op.meeting? = some m :=
    hk.meeting?_eq hcur
  have hgathered : ∀ slots, op.meeting? = some .gather →
      (op.gathered r slots).ticket? = op.ticket? w.size := by
    intro slots hop
    rw [Op.ticket?_gathered, Op.ticket?_of_meeting? hop]
  have harrive : ∀ {through : Rank} {wait : Nat → Rank},
      through.OnProgram w.size (programs r) → (∀ g, (wait g).OnProgram w.size (programs r)) →
      ∃ k', (w.arrive r through wait).ranks = w.ranks.set r k' ∧
        k'.OnProgram w.size (programs r) := by
    intro through wait hthrough hwait
    rcases w.arrive_ranks r through wait with h | h
    · exact ⟨through, h, hthrough⟩
    · exact ⟨wait w.generation, h, hwait _⟩
  cases hmoves with
  | done a hphase hplan =>
      rw [hplan] at hstarts
      exact ⟨_, rfl, hk.finish hcur hstarts.2⟩
  | clock hphase hplan =>
      rw [hplan] at hstarts
      cases hstarts
      exact ⟨_, rfl, hk.finish hcur rfl⟩
  | barrier hphase hplan =>
      rw [hplan] at hstarts
      cases hstarts
      exact harrive (hk.finish hcur rfl) fun g => hk.enter hcur rfl
  | write c hphase hplan =>
      rw [hplan] at hstarts
      exact ⟨_, rfl, hk.enter hcur (Op.meeting?_of_contribution? hstarts).symm⟩
  | send peer tag m hphase hplan =>
      rw [hplan] at hstarts
      obtain ⟨rfl, hpeer⟩ := hstarts
      exact ⟨_, rfl, hk.finish hcur (by simp [Answer.ticket?, Op.ticket?, hpeer])⟩
  | receive source tag m rest hphase hplan hmail =>
      rw [hplan] at hstarts
      obtain ⟨n, t, buffer, rfl, -⟩ := hstarts
      exact ⟨_, rfl, hk.finish hcur rfl⟩
  | meet hphase =>
      have hop := hmeet (m := .gather) (by rw [hphase]; rfl)
      exact harrive (hk.enter hcur hop.symm) fun g => hk.enter hcur hop.symm
  | pass g hphase hopen =>
      have hop := hmeet (m := .gather) (by rw [hphase]; rfl)
      exact ⟨_, rfl, hk.enter hcur hop.symm⟩
  | look hphase =>
      have hop := hmeet (m := .gather) (by rw [hphase]; rfl)
      exact ⟨_, rfl, hk.enter hcur hop.symm⟩
  | part slots hphase =>
      have hop := hmeet (m := .gather) (by rw [hphase]; rfl)
      exact harrive (hk.finish hcur (hgathered slots hop)) fun g => hk.enter hcur hop.symm
  | leave g slots hphase hopen =>
      have hop := hmeet (m := .gather) (by rw [hphase]; rfl)
      exact ⟨_, rfl, hk.finish hcur (hgathered slots hop)⟩
  | resume g hphase hopen =>
      have hop := hmeet (m := .barrier) (by rw [hphase]; rfl)
      exact ⟨_, rfl, hk.finish hcur (Op.ticket?_of_meeting? hop).symm⟩

theorem OnPrograms.step (h : w.OnPrograms size programs) (hstep : w.step? r = some v) :
    v.OnPrograms size programs := by
  obtain ⟨k, op, hk, hcur, hmoves⟩ := moves_of_step? hstep
  have hsize := h.size_eq
  have hrank := h.rank hk
  rw [← hsize] at hrank
  obtain ⟨k', hranks, hk'⟩ := hmoves.exists_onProgram hrank hcur
  rw [hsize] at hk'
  exact h.of_set hranks hk'

theorem start_onPrograms (size : Nat) (programs : List (List Op)) :
    (start size programs).OnPrograms (max size 1) fun r => programs.getD r [] where
  size_eq := by simp [World.size, start, launch]
  rank := by
    intro r k hk
    simp only [start, launch, List.getElem?_map, Option.map_eq_some_iff] at hk
    obtain ⟨p, hp, rfl⟩ := hk
    obtain ⟨hlt, hget⟩ := List.getElem?_eq_some_iff.mp hp
    rw [List.getElem_range] at hget
    subst hget
    exact ⟨rfl, Nat.zero_le _, rfl, fun hm => by cases hm⟩

theorem onPrograms_of_follow {size : Nat} {programs : List (List Op)} {rs : List Nat}
    (hrun : (start size programs).follow rs = some w) :
    w.OnPrograms (max size 1) fun r => programs.getD r [] :=
  follow_induction OnPrograms.step hrun (start_onPrograms size programs)

end World

end SpmdArrays.Spmd
