import SpmdArrays.Proofs.Spmd.Steps

/-!
Messages between ranks, in every interleaving.

A mailbox is a queue between one source and one target. Only sends of the source
put messages into it and only waits of the target take messages out, so the two
programs and how far the two ranks are tell what it holds: of all that was sent,
what is left when each completed wait has taken one (`World.Delivers`). The
message that a wait took decides its answer.
-/

namespace SpmdArrays.Spmd

/-! ### Sends and waits of a program -/

/-- The message that an operation sends to the given peer under the given tag. -/
def Op.message? (peer tag : Int) : Op → Option Message
  | .send t data peer' tag' cond =>
    if cond ∧ peer' = peer ∧ tag' = tag then some ⟨t, data⟩ else none
  | _ => none

def messages (peer tag : Int) (ops : List Op) : List Message := ops.filterMap (Op.message? peer tag)

/-- The source and the tag that an operation waits for, if it waits for a message. -/
def Op.request? (tickets : List Ticket) : Op → Option (Int × Int)
  | .wait k _ _ true =>
    match tickets[k]? with
    | some (.receive source tag) => some (source, tag)
    | _ => none
  | _ => none

def requestAt? (size : Nat) (program : List Op) (i : Nat) : Option (Int × Int) :=
  program[i]?.bind (Op.request? (ticketsOf size (program.take i)))

/-- Of the first `i` operations, the numbers of those that wait for a message of
the given source and tag. -/
def waits (size : Nat) (program : List Op) (source tag : Int) (i : Nat) : List Nat :=
  (List.range i).filter fun j => requestAt? size program j = some (source, tag)

namespace Op

variable {op : Op} {r size : Nat} {tickets : List Ticket}

theorem message?_eq_none {peer tag : Int} (hpeer : 0 ≤ peer ∧ peer < size)
    (h : ∀ m, op.plan r size tickets ≠ .send peer tag m) : op.message? peer tag = none := by
  cases op with
  | send t data peer' tag' cond =>
      simp only [message?]
      split
      · rename_i hsend
        obtain ⟨hcond, rfl, rfl⟩ := hsend
        cases hcond
        exact absurd (plan_send hpeer) (h _)
      · rfl
  | _ => rfl

theorem plan_of_request? {source tag : Int} (h : op.request? tickets = some (source, tag)) :
    op.plan r size tickets = .receive source tag := by
  unfold request? at h
  split at h
  · split at h
    · rename_i htick
      cases h
      exact plan_wait htick
    · cases h
  · cases h

theorem request?_of_plan {source tag : Int} (h : op.plan r size tickets = .receive source tag) :
    op.request? tickets = some (source, tag) := by
  have hstarts := op.plan_starts r size tickets
  rw [h] at hstarts
  obtain ⟨k, t, buffer, rfl, htick⟩ := hstarts
  simp only [request?, htick]

theorem request?_eq_none (h : ∀ source tag, op.plan r size tickets ≠ .receive source tag) :
    op.request? tickets = none := by
  cases hreq : op.request? tickets with
  | none => rfl
  | some key => exact absurd (plan_of_request? hreq) (h key.1 key.2)

end Op

/-! ### A queue and its two ends -/

/-- `sent` are the messages put into a queue so far, `taken` those taken out and
`mail` those still in it. `waits` are the numbers of the operations that took one
each, and `took i m` says that operation `i` got the message `m`. -/
structure Fifo (sent taken mail : List Message) (waits : List Nat)
    (took : Nat → Message → Prop) : Prop where
  sent_eq : sent = taken ++ mail
  length_eq : waits.length = taken.length
  took : ∀ {j i : Nat}, waits[j]? = some i → ∃ m, taken[j]? = some m ∧ took i m

namespace Fifo

variable {sent taken mail : List Message} {waits : List Nat} {m : Message}
  {took took' : Nat → Message → Prop}

theorem mono (h : Fifo sent taken mail waits took) (hmono : ∀ {i m}, took i m → took' i m) :
    Fifo sent taken mail waits took' where
  sent_eq := h.sent_eq
  length_eq := h.length_eq
  took := fun hi =>
    have ⟨m, hm, htook⟩ := h.took hi
    ⟨m, hm, hmono htook⟩

theorem push (h : Fifo sent taken mail waits took) (m : Message) :
    Fifo (sent ++ [m]) taken (mail ++ [m]) waits took where
  sent_eq := by rw [h.sent_eq, List.append_assoc]
  length_eq := h.length_eq
  took := h.took

theorem pop (h : Fifo sent taken (m :: mail) waits took) {n : Nat} (htook : took n m) :
    Fifo sent (taken ++ [m]) mail (waits ++ [n]) took where
  sent_eq := by rw [h.sent_eq, List.append_assoc, List.singleton_append]
  length_eq := by
    rw [List.length_append, List.length_append, h.length_eq, List.length_singleton,
      List.length_singleton]
  took := by
    intro j i hi
    rcases getElem?_concat hi with hold | ⟨rfl, rfl⟩
    · obtain ⟨m', hm', htook'⟩ := h.took hold
      refine ⟨m', ?_, htook'⟩
      rw [List.getElem?_append_left (List.getElem?_eq_some_iff.mp hm').1, hm']
    · exact ⟨m, by rw [h.length_eq, List.getElem?_concat_length], htook⟩

end Fifo

/-! ### What an action means for the mail -/

namespace World

def answered (w : World) (r : Nat) : List Answer := (w.ranks[r]?.map Rank.answers).getD []

variable {size : Nat} {programs : Nat → List Op} {w v : World} {r : Nat} {k : Rank} {op : Op}

theorem answered_eq (hk : w.ranks[r]? = some k) : w.answered r = k.answers := by
  rw [answered, hk]
  rfl

theorem answered_of_set (hk : w.ranks[r]? = some k) {k' : Rank}
    (hranks : v.ranks = w.ranks.set r k') (p : Nat) :
    v.answered p = if p = r then k'.answers else w.answered p := by
  have hlt := (List.getElem?_eq_some_iff.mp hk).1
  split
  · rename_i hpr
    subst hpr
    exact answered_eq (by rw [hranks, List.getElem?_set_self hlt])
  · rename_i hpr
    rw [answered, hranks, List.getElem?_set_ne (Ne.symm hpr), answered]

/-- Rank `r` completes an operation with the given answer. -/
def Completes (w v : World) (r : Nat) (a : Answer) : Prop :=
  ∀ p, v.answered p = if p = r then w.answered r ++ [a] else w.answered p

/-- What an action of rank `r`, whose current operation is `op`, means for the mail. -/
inductive Mails (size : Nat) (w : World) (r : Nat) (tickets : List Ticket) (op : Op) (v : World) :
    Prop
  | inside (hanswered : ∀ p, v.answered p = w.answered p) (hmail : v.mail = w.mail)
  | quiet (a : Answer) (hdone : w.Completes v r a) (hmail : v.mail = w.mail)
      (hmessage : ∀ {d : Nat} {tag : Int}, d < size → op.message? d tag = none)
      (hrequest : op.request? tickets = none)
  | push (peer tag : Int) (m : Message) (a : Answer) (hdone : w.Completes v r a)
      (hop : op = .send m.elem m.data peer tag true)
      (hmail : ∀ box, v.mail box = if box = ⟨r, peer, tag⟩ then w.mail box ++ [m] else w.mail box)
  | pop (source tag : Int) (m : Message) (hdone : w.Completes v r (op.received r source m))
      (hrequest : op.request? tickets = some (source, tag))
      (htaken : w.mail ⟨source, r, tag⟩ = m :: v.mail ⟨source, r, tag⟩)
      (hmail : ∀ box, box ≠ ⟨source, r, tag⟩ → v.mail box = w.mail box)

theorem Moves.mails (hmoves : w.Moves r k op v) (hk : w.ranks[r]? = some k)
    (hprog : k.OnProgram w.size (programs r)) (hcur : k.op? = some op) :
    w.Mails w.size r k.tickets op v := by
  have hstarts := op.plan_starts r w.size k.tickets
  have hfinish : ∀ {a : Answer} {u : World}, u.ranks = w.ranks.set r (k.finish a) →
      w.Completes u r a := by
    intro a u hranks p
    rw [answered_of_set hk hranks, answered_eq hk]
    rfl
  have henter : ∀ {p : Phase} {u : World}, u.ranks = w.ranks.set r (k.enter p) →
      ∀ q, u.answered q = w.answered q := by
    intro p u hranks q
    rw [answered_of_set hk hranks]
    split
    · rename_i hq
      subst hq
      exact (answered_eq hk).symm
    · rfl
  have hquiet : ∀ {a : Answer} {u : World}, u.ranks = w.ranks.set r (k.finish a) →
      u.mail = w.mail → (∀ peer tag m, op.plan r w.size k.tickets ≠ .send peer tag m) →
      (∀ source tag, op.plan r w.size k.tickets ≠ .receive source tag) →
      w.Mails w.size r k.tickets op u := fun hranks hmail hsend hreceive =>
    .quiet _ (hfinish hranks) hmail
      (fun hd => Op.message?_eq_none ⟨by omega, by omega⟩ (hsend _ _))
      (Op.request?_eq_none hreceive)
  have hmeeting : ∀ {a : Answer} {u : World} {m : Meeting}, k.phase.meeting? = some m →
      u.ranks = w.ranks.set r (k.finish a) → u.mail = w.mail →
      w.Mails w.size r k.tickets op u := by
    intro a u m hm hranks hmail
    have hop := hprog.meeting?_eq hcur hm
    refine hquiet hranks hmail (fun peer tag m hplan => ?_) fun source tag hplan => ?_
    · rw [hplan] at hstarts
      rw [hstarts.1] at hop
      cases hop
    · rw [hplan] at hstarts
      obtain ⟨n, t, buffer, rfl, -⟩ := hstarts
      cases hop
  cases hmoves with
  | done a hphase hplan => exact hquiet rfl rfl (by simp [hplan]) (by simp [hplan])
  | clock hphase hplan => exact hquiet rfl rfl (by simp [hplan]) (by simp [hplan])
  | barrier hphase hplan =>
      unfold arrive
      split
      · exact .inside (henter rfl) rfl
      · exact hquiet rfl rfl (by simp [hplan]) (by simp [hplan])
  | write c hphase hplan => exact .inside (henter rfl) rfl
  | send peer tag m hphase hplan =>
      rw [hplan] at hstarts
      refine .push peer tag m _ (hfinish rfl) hstarts.1 fun box => ?_
      simp only [setMail, setRank]
      split
      · rename_i hbox
        rw [hbox]
      · rfl
  | receive source tag m rest hphase hplan hmail =>
      refine .pop source tag m (hfinish rfl) (Op.request?_of_plan hplan) ?_ fun box hbox => ?_
      · simpa [setMail] using hmail
      · simp [setMail, setRank, hbox]
  | meet hphase =>
      unfold arrive
      split <;> exact .inside (henter rfl) rfl
  | pass g hphase hopen => exact .inside (henter rfl) rfl
  | look hphase => exact .inside (henter rfl) rfl
  | part slots hphase =>
      unfold arrive
      split
      · exact .inside (henter rfl) rfl
      · exact hmeeting (m := .gather) (by rw [hphase]; rfl) rfl rfl
  | leave g slots hphase hopen => exact hmeeting (m := .gather) (by rw [hphase]; rfl) rfl rfl
  | resume g hphase hopen => exact hmeeting (m := .barrier) (by rw [hphase]; rfl) rfl rfl

/-! ### Mailboxes are queues -/

def sent (programs : Nat → List Op) (w : World) (s d : Nat) (tag : Int) : List Message :=
  messages d tag ((programs s).take (w.answered s).length)

/-- The numbers of the waits of rank `d` for messages of rank `s` under a tag that
are completed. -/
def waited (size : Nat) (programs : Nat → List Op) (w : World) (s d : Nat) (tag : Int) : List Nat :=
  waits size (programs d) s tag (w.answered d).length

/-- Operation `i` of rank `d` answered what the message `m` of rank `s` makes it answer. -/
def Took (program : List Op) (answers : List Answer) (s d i : Nat) (m : Message) : Prop :=
  ∃ op, program[i]? = some op ∧ answers[i]? = some (op.received d s m)

/-- Every mailbox between two ranks is a queue; `taken` are the messages taken out of it. -/
def Delivers (size : Nat) (programs : Nat → List Op) (taken : Mailbox → List Message) (w : World) :
    Prop :=
  ∀ (s d : Nat) (tag : Int), s < size → d < size →
    Fifo (w.sent programs s d tag) (taken ⟨s, d, tag⟩) (w.mail ⟨s, d, tag⟩)
      (w.waited size programs s d tag) (Took (programs d) (w.answered d) s d)

theorem Took.append {program : List Op} {answers : List Answer} {s d i : Nat} {m : Message}
    (h : Took program answers s d i m) (more : List Answer) :
    Took program (answers ++ more) s d i m := by
  obtain ⟨op, hop, hanswer⟩ := h
  refine ⟨op, hop, ?_⟩
  rw [List.getElem?_append_left (List.getElem?_eq_some_iff.mp hanswer).1, hanswer]

variable {a : Answer}

theorem Completes.sent_eq (h : w.Completes v r a)
    (hop : (programs r)[(w.answered r).length]? = some op) (s d : Nat) (tag : Int) :
    v.sent programs s d tag =
      w.sent programs s d tag ++ if s = r then (op.message? d tag).toList else [] := by
  rw [sent, sent, h s]
  split
  · rename_i hs
    subst hs
    rw [List.length_append, List.length_singleton, List.take_add_one, hop, Option.toList_some,
      messages, filterMap_concat, messages]
  · rw [List.append_nil]

theorem Completes.waited_eq (h : w.Completes v r a) (s d : Nat) (tag : Int) :
    v.waited size programs s d tag =
      w.waited size programs s d tag ++
        if d = r ∧ requestAt? size (programs r) (w.answered r).length = some ((s : Int), tag) then
          [(w.answered r).length] else [] := by
  rw [waited, waited, h d]
  by_cases hd : d = r
  · subst hd
    rw [if_pos rfl, List.length_append, List.length_singleton, waits, List.range_succ,
      List.filter_append, waits]
    congr 1
    by_cases hreq : requestAt? size (programs d) (w.answered d).length = some ((s : Int), tag) <;>
      simp [hreq]
  · simp [hd]

def taken (w v : World) (box : Mailbox) : List Message :=
  (w.mail box).take ((w.mail box).length - (v.mail box).length)

theorem taken_eq_nil {box : Mailbox} (h : (w.mail box).length ≤ (v.mail box).length) :
    w.taken v box = [] := by
  rw [taken, Nat.sub_eq_zero_of_le h, List.take_zero]

theorem Completes.took (h : w.Completes v r a) {program : List Op} {s d i : Nat} {m : Message}
    (htook : Took program (w.answered d) s d i m) : Took program (v.answered d) s d i m := by
  rw [h d]
  split
  · rename_i hd
    subst hd
    exact htook.append [a]
  · exact htook

theorem Delivers.mails {history : Mailbox → List Message} {tickets : List Ticket}
    (h : w.Delivers size programs history) (hmails : w.Mails size r tickets op v)
    (hop : (programs r)[(w.answered r).length]? = some op)
    (htickets : tickets = ticketsOf size ((programs r).take (w.answered r).length)) :
    v.Delivers size programs fun box => history box ++ w.taken v box := by
  have hrequest : requestAt? size (programs r) (w.answered r).length = op.request? tickets := by
    rw [requestAt?, hop, htickets, Option.bind_some]
  intro s d tag hs hd
  have hfifo := h s d tag hs hd
  show Fifo _ (history ⟨s, d, tag⟩ ++ w.taken v ⟨s, d, tag⟩) _ _ _
  cases hmails with
  | inside hanswered hmail =>
      rw [sent, waited, hanswered, hanswered, hmail, taken_eq_nil (by simp [hmail]),
        List.append_nil]
      exact hfifo
  | quiet a hdone hmail hmessage hnone =>
      rw [hdone.sent_eq hop, hdone.waited_eq, hrequest, hnone, hmessage hd, hmail,
        taken_eq_nil (by simp [hmail])]
      simpa using hfifo.mono hdone.took
  | push peer tag' m a hdone hsend hmail =>
      have hnone : op.request? tickets = none := by rw [hsend]; rfl
      rw [hdone.sent_eq hop, hdone.waited_eq, hrequest, hnone,
        taken_eq_nil (by rw [hmail]; split <;> simp), hmail]
      simp only [reduceCtorEq, and_false, if_false, List.append_nil]
      by_cases hbox : (⟨s, d, tag⟩ : Mailbox) = ⟨r, peer, tag'⟩
      · obtain ⟨hsr, hdp, htag⟩ := Mailbox.mk.inj hbox
        have hsr : s = r := by omega
        rw [if_pos hbox, if_pos hsr, hsend, ← hdp, ← htag]
        simpa [Op.message?] using (hfifo.mono hdone.took).push m
      · rw [if_neg hbox]
        have hother : (if s = r then (op.message? d tag).toList else []) = [] := by
          split
          · rename_i hsr
            subst hsr
            simp only [Mailbox.mk.injEq, true_and, not_and] at hbox
            simp only [hsend, Op.message?]
            rw [if_neg (fun hc => hbox hc.2.1.symm hc.2.2.symm)]
            rfl
          · rfl
        rw [hother, List.append_nil]
        exact hfifo.mono hdone.took
  | pop source tag' m hdone hreq htaken hmail =>
      have hnone : op.message? d tag = none := by
        cases op <;> first | rfl | cases hreq
      rw [hdone.sent_eq hop, hdone.waited_eq, hrequest, hreq, hnone, Option.toList_none, ite_self,
        List.append_nil]
      have hgrown : Fifo _ _ _ _ (Took (programs d) (v.answered d) s d) := hfifo.mono hdone.took
      by_cases hbox : (⟨s, d, tag⟩ : Mailbox) = ⟨source, r, tag'⟩
      · obtain ⟨rfl, hdr, rfl⟩ := Mailbox.mk.inj hbox
        have hdr : d = r := by omega
        subst hdr
        have hhead : w.taken v ⟨s, d, tag⟩ = [m] := by
          rw [taken, htaken, List.length_cons, Nat.add_sub_cancel_left]
          rfl
        rw [hhead, if_pos ⟨rfl, rfl⟩]
        rw [htaken] at hgrown
        refine hgrown.pop ⟨op, hop, ?_⟩
        rw [hdone d, if_pos rfl, List.getElem?_concat_length]
      · have hkey : ¬ (d = r ∧ some (source, tag') = some ((s : Int), tag)) := by
          rintro ⟨rfl, hkey⟩
          cases hkey
          exact hbox rfl
        rw [if_neg hkey, hmail _ hbox, taken_eq_nil (by simp [hmail _ hbox]), List.append_nil,
          List.append_nil]
        exact hgrown

theorem Delivers.step {history : Mailbox → List Message} (h : w.Delivers size programs history)
    (hprogs : w.OnPrograms size programs) (hstep : w.step? r = some v) :
    v.Delivers size programs fun box => history box ++ w.taken v box := by
  obtain ⟨k, op, hk, hcur, hmoves⟩ := moves_of_step? hstep
  have hprog := hprogs.rank hk
  have hmails := hmoves.mails hk (hprogs.size_eq.symm ▸ hprog) hcur
  rw [hprogs.size_eq] at hmails
  refine h.mails hmails ?_ ?_
  · rw [answered_eq hk, hprog.getElem?_program hcur]
  · rw [answered_eq hk, hprog.tickets]

/-- The messages that leave a mailbox in an interleaving, in order. -/
def consumed (box : Mailbox) (w : World) : List Nat → List Message
  | [] => []
  | r :: rs =>
    match w.step? r with
    | none => []
    | some v => w.taken v box ++ v.consumed box rs

theorem Delivers.follow {history : Mailbox → List Message} {rs : List Nat}
    (h : w.Delivers size programs history) (hprogs : w.OnPrograms size programs)
    (hrun : w.follow rs = some v) :
    v.Delivers size programs fun box => history box ++ w.consumed box rs := by
  induction rs generalizing w history with
  | nil =>
      cases hrun
      simpa [consumed] using h
  | cons r rs ih =>
      simp only [World.follow] at hrun
      split at hrun
      · cases hrun
      · rename_i u hu
        simpa [consumed, hu] using ih (h.step hprogs hu) (hprogs.step hu) hrun

theorem start_answered (size : Nat) (programs : List (List Op)) (r : Nat) :
    (start size programs).answered r = [] := by
  simp only [answered, start, launch, List.getElem?_map, Option.map_map]
  cases (List.range (max size 1))[r]? <;> rfl

theorem delivers_of_follow {size : Nat} {programs : List (List Op)} {rs : List Nat}
    (hrun : (start size programs).follow rs = some w) :
    w.Delivers (max size 1) (fun r => programs.getD r []) fun box =>
      (start size programs).consumed box rs := by
  have hstart : (start size programs).Delivers (max size 1) (fun r => programs.getD r [])
      fun _ => [] := by
    intro s d tag hs hd
    rw [sent, waited, start_answered, start_answered]
    exact ⟨rfl, rfl, fun hi => by cases hi⟩
  simpa using hstart.follow (start_onPrograms size programs) hrun

end World

theorem exists_rank_of_requestAt? {size : Nat} {program : List Op} {i : Nat} {source tag : Int}
    (h : requestAt? size program i = some (source, tag)) : ∃ s : Nat, s < size ∧ source = s := by
  obtain ⟨op, -, hreq⟩ := Option.bind_eq_some_iff.mp h
  have hstarts := op.plan_starts 0 size (ticketsOf size (program.take i))
  rw [Op.plan_of_request? hreq] at hstarts
  obtain ⟨n, t, buffer, -, hticket⟩ := hstarts
  obtain ⟨op', -, hop'⟩ := List.mem_filterMap.mp (List.mem_of_getElem? hticket)
  have hpeer : 0 ≤ source ∧ source < size := by
    cases op' with
    | receive peer tag' cond =>
        simp only [Op.ticket?] at hop'
        split at hop'
        · rename_i hcond
          cases hop'
          exact hcond.2
        · cases hop'
    | send t data peer tag' cond =>
        simp only [Op.ticket?] at hop'
        split at hop' <;> cases hop'
    | _ => cases hop'
  exact ⟨source.toNat, by omega, by omega⟩

theorem waits_getElem? {size : Nat} {program : List Op} {source tag : Int} {i n : Nat} (hi : i < n)
    (hreq : requestAt? size program i = some (source, tag)) :
    (waits size program source tag n)[(waits size program source tag i).length]? = some i := by
  have hguard : ∀ j, waits size program source tag j =
      (List.range j).filterMap
        (Option.guard fun j => requestAt? size program j = some (source, tag)) := fun j =>
    congrFun List.filterMap_eq_filter.symm _
  rw [hguard, hguard, show List.range i = (List.range n).take i by
    rw [List.take_range, Nat.min_eq_left (Nat.le_of_lt hi)]]
  exact filterMap_getElem?_of_getElem? (List.getElem?_range hi) (by simp [Option.guard, hreq])

/-- A completed wait answered what the message whose turn it was makes it answer. -/
theorem World.Delivers.received {size : Nat} {programs : Nat → List Op}
    {history : Mailbox → List Message} {w : World} (h : w.Delivers size programs history)
    {s d i : Nat} {tag : Int} (hs : s < size) (hd : d < size)
    (hreq : requestAt? size (programs d) i = some ((s : Int), tag))
    (hi : i < (w.answered d).length) :
    ∃ m, (messages d tag (programs s))[(waits size (programs d) s tag i).length]? = some m ∧
      World.Took (programs d) (w.answered d) s d i m := by
  have hfifo := h s d tag hs hd
  obtain ⟨m, hm, htook⟩ := hfifo.took (waits_getElem? hi hreq)
  refine ⟨m, ?_, htook⟩
  have hfront := List.take_prefix (w.answered s).length (programs s)
  have hsent : World.sent programs w s d tag <+: messages d tag (programs s) := hfront.filterMap _
  rw [hfifo.sent_eq] at hsent
  obtain ⟨later, hlater⟩ := hsent
  rw [← hlater, List.append_assoc,
    List.getElem?_append_left (List.getElem?_eq_some_iff.mp hm).1, hm]

/-! ### Delivery -/

/-- What becomes of a buffer when a message arrives: the message stands in its
first elements, or it has another type or no room and the buffer is as before. -/
inductive Lands (rank : Nat) (source : Int) : (m : Message) → (t : ElementType) →
    (buffer : List t.Carrier) → Except (Stop RunError) Unit → List t.Carrier → Prop
  | fits {t : ElementType} {data buffer : List t.Carrier} (h : data.length ≤ buffer.length) :
      Lands rank source ⟨t, data⟩ t buffer (.ok ()) (data ++ buffer.drop data.length)
  | otherType {m : Message} {t : ElementType} {buffer : List t.Carrier} (h : m.elem ≠ t) :
      Lands rank source m t buffer
        (.error (.failed (.collectiveMismatch rank (.message source t)))) buffer
  | tooLong {t : ElementType} {data buffer : List t.Carrier} (h : buffer.length < data.length) :
      Lands rank source ⟨t, data⟩ t buffer
        (.error (.failed (.collectiveMismatch rank (.messageLength data.length buffer.length))))
        buffer

theorem deliver_lands (rank : Nat) (source : Int) (m : Message) (t : ElementType)
    (buffer : List t.Carrier) :
    Lands rank source m t buffer (deliver rank source m t buffer).1
      (deliver rank source m t buffer).2 := by
  obtain ⟨u, data⟩ := m
  unfold deliver Message.data?
  by_cases hut : u = t
  · subst hut
    by_cases hlen : buffer.length < data.length
    · simp only [↓reduceDIte, if_pos hlen]
      exact .tooLong hlen
    · simp only [↓reduceDIte, if_neg hlen]
      exact .fits (Nat.le_of_not_lt hlen)
  · simp only [dif_neg hut]
    exact .otherType hut

/-- The answer of an operation that has nothing to send, to receive or to wait for. -/
def Op.idle? (tickets : List Ticket) : Op → Option Answer
  | .send _ _ _ _ false => some (.ticket (.ok .skipped))
  | .receive _ _ false => some (.ticket (.ok .skipped))
  | .wait k t buffer cond =>
    if ((Op.wait k t buffer cond).request? tickets).isSome then none
    else some (.buffer t (.ok ()) buffer)
  | _ => none

theorem Op.plan_of_idle? {op : Op} {r size : Nat} {tickets : List Ticket} {a : Answer}
    (h : op.idle? tickets = some a) : op.plan r size tickets = .done a := by
  cases op with
  | send t data peer tag cond =>
      cases cond with
      | false => cases h; rfl
      | true => cases h
  | receive peer tag cond =>
      cases cond with
      | false => cases h; rfl
      | true => cases h
  | wait k t buffer cond =>
      simp only [idle?] at h
      split at h
      · cases h
      · rename_i hnone
        cases h
        simp only [plan]
        split
        · rename_i htick
          simp [request?, htick] at hnone
        · rfl
  | _ => cases h

theorem World.step?_of_idle? {w : World} {r : Nat} {k : Rank} {op : Op}
    {program : List Op} {a : Answer} (hk : w.ranks[r]? = some k)
    (hprog : k.OnProgram w.size program) (hcur : k.op? = some op)
    (hidle : op.idle? k.tickets = some a) : w.step? r = some (w.setRank r (k.finish a)) := by
  have hplan : op.plan r w.size k.tickets = .done a := Op.plan_of_idle? hidle
  have hstarts := op.plan_starts r w.size k.tickets
  rw [hplan] at hstarts
  have hphase := hprog.phase_eq_start hcur hstarts.1
  simp only [step?, hk, hcur, hphase, begin, hplan]

/-- In every interleaving and for every source, target and tag: the messages that
the target's completed waits took, in the order of these waits, are a beginning of
what the source sends in the order of its program, and all that was sent and not
taken is still there. Every completed wait took one message, and its buffer is
what that message makes of it. A send, a receive or a wait that has nothing to do
changes its own rank only. -/
theorem World.messages_in_order {size : Nat} {programs : List (List Op)} {rs : List Nat} {w : World}
    (hrun : (World.start size programs).follow rs = some w) {s d : Nat} {ks kd : Rank}
    (hs : w.ranks[s]? = some ks) (hd : w.ranks[d]? = some kd) (tag : Int) :
    let taken := (World.start size programs).consumed ⟨s, d, tag⟩ rs
    let completed := waits (max size 1) (programs.getD d []) s tag kd.answers.length
    taken <+: messages d tag (programs.getD s []) ∧
    messages d tag ((programs.getD s []).take ks.answers.length) = taken ++ w.mail ⟨s, d, tag⟩ ∧
    completed.length = taken.length ∧
    (∀ {j i : Nat}, completed[j]? = some i →
      ∃ m ticket t buffer outcome after, taken[j]? = some m ∧
        (programs.getD d [])[i]? = some (.wait ticket t buffer true) ∧
        kd.answers[i]? = some (.buffer t outcome after) ∧
        Lands d s m t buffer outcome after) ∧
    ∀ {op : Op} {a : Answer}, kd.op? = some op →
      op.idle? kd.tickets = some a → w.step? d = some (w.setRank d (kd.finish a)) := by
  intro taken completed
  have hprogs := onPrograms_of_follow hrun
  have hfifo := delivers_of_follow hrun s d tag (hprogs.lt_size hs) (hprogs.lt_size hd)
  rw [sent, waited, answered_eq hs, answered_eq hd] at hfifo
  refine ⟨?_, hfifo.sent_eq, hfifo.length_eq, ?_, ?_⟩
  · have hfront := List.take_prefix ks.answers.length (programs.getD s [])
    have hsent : messages d tag ((programs.getD s []).take ks.answers.length) <+:
        messages d tag (programs.getD s []) := hfront.filterMap _
    rw [hfifo.sent_eq] at hsent
    exact (List.prefix_append _ _).trans hsent
  · intro j i hi
    obtain ⟨m, hm, op, hop, hanswer⟩ := hfifo.took hi
    have hrequest := (List.mem_filter.mp (List.mem_of_getElem? hi)).2
    rw [decide_eq_true_eq, requestAt?, hop, Option.bind_some] at hrequest
    have hstarts := op.plan_starts d (max size 1)
      (ticketsOf (max size 1) ((programs.getD d []).take i))
    rw [Op.plan_of_request? hrequest] at hstarts
    obtain ⟨ticket, t, buffer, rfl, -⟩ := hstarts
    exact ⟨m, ticket, t, buffer, _, _, hm, hop, hanswer, deliver_lands d s m t buffer⟩
  · intro op a hcur hidle
    have hprog := hprogs.rank hd
    rw [← hprogs.size_eq] at hprog
    exact step?_of_idle? hd hprog hcur hidle

/-- Two sends under one tag and one that is skipped; the second wait gets numbers of
another type. -/
def sendTwice : List (List Op) :=
  [[.send .int64 [(1 : Int)] 1 7 true, .send .int64 [(9 : Int)] 1 7 false,
      .send .int32 [(2 : Int)] 1 7 true],
    [.receive 0 7 true, .receive 0 7 true, .wait 1 .int64 [(0 : Int), (5 : Int)] true,
      .wait 0 .int64 [(6 : Int)] true, .wait 1 .int64 [(4 : Int)] false]]

theorem World.sendTwice_in_order :
    ∃ w kd, (World.start 2 sendTwice).follow [1, 0, 0, 1, 0, 1, 1, 1] = some w ∧
      w.ranks[1]? = some kd ∧ waits 2 (sendTwice.getD 1 []) 0 7 kd.answers.length = [2, 3] ∧
      ∃ m ticket t buffer outcome after,
        ((World.start 2 sendTwice).consumed ⟨0, 1, 7⟩ [1, 0, 0, 1, 0, 1, 1, 1])[1]? = some m ∧
        (sendTwice.getD 1 [])[3]? = some (.wait ticket t buffer true) ∧
        kd.answers[3]? = some (.buffer t outcome after) ∧
        Lands 1 0 m t buffer outcome after := by
  have hdone : ((World.start 2 sendTwice).follow [1, 0, 0, 1, 0, 1, 1, 1]).map
      (fun w => w.ranks.map fun k => k.answers.length) = some [3, 5] := by decide +kernel
  obtain ⟨w, hrun, hlens⟩ := Option.map_eq_some_iff.mp hdone
  have hrank : ∀ {r n : Nat}, [3, 5][r]? = some n →
      ∃ k, w.ranks[r]? = some k ∧ k.answers.length = n := by
    intro r n hr
    rw [← hlens, List.getElem?_map] at hr
    exact Option.map_eq_some_iff.mp hr
  obtain ⟨ks, hs, -⟩ := hrank (r := 0) rfl
  obtain ⟨kd, hd, hlen⟩ := hrank (r := 1) rfl
  have hwaits : waits 2 (sendTwice.getD 1 []) 0 7 kd.answers.length = [2, 3] := by
    rw [hlen]
    decide +kernel
  have hj : (waits 2 (sendTwice.getD 1 []) 0 7 kd.answers.length)[1]? = some 3 := by
    rw [hwaits]
    rfl
  exact ⟨w, kd, hrun, hd, hwaits, (World.messages_in_order hrun hs hd 7).2.2.2.1 hj⟩

end SpmdArrays.Spmd
