import SpmdArrays.Proofs.Spmd.Rendezvous

/-!
What a gather gives, in every interleaving.

The gathers of a rank are numbered by its program. `round` holds what all ranks
contribute to the gathers with one number. A rank that has written its slot
leaves it alone until it has left the gather, so that what it reads between the
two rendezvous is the round of the gather it is in, and what it answers is
computed from this round: no contribution of an earlier or a later round gets in.
-/

namespace SpmdArrays.Spmd

/-- What all ranks contribute to their gathers with the given number. -/
def round (size : Nat) (programs : Nat → List Op) (n : Nat) : Slots :=
  (List.range size).map fun p => (contributions (programs p))[n]?

def RoundFull (size : Nat) (programs : Nat → List Op) (n : Nat) : Prop :=
  ∀ p < size, n < (contributions (programs p)).length

def Phase.slots? : Phase → Option Slots
  | .read slots | .leaving _ slots => some slots
  | _ => none

/-- A rank whose slot, whose reading of the slots and whose answers are those of
the rounds it took part in. -/
structure Rank.InRounds (size : Nat) (programs : Nat → List Op) (r : Nat)
    (slot : Option (Option Contribution)) (k : Rank) : Prop where
  written : k.phase.meeting? = some .gather →
    slot = some ((contributions (programs r))[k.gathers (programs r)]?)
  seen : ∀ {slots}, k.phase.slots? = some slots →
    slots = round size programs (k.gathers (programs r)) ∧
      RoundFull size programs (k.gathers (programs r))
  answered : ∀ {i : Nat} {op : Op} {c : Contribution} {a : Answer}, (programs r)[i]? = some op →
    op.contribution? = some c → k.answers[i]? = some a →
    a = op.gathered r (round size programs (contributions ((programs r).take i)).length) ∧
      RoundFull size programs (contributions ((programs r).take i)).length

namespace Rank

variable {size : Nat} {programs : Nat → List Op} {r : Nat} {k : Rank} {op : Op}
  {slot : Option (Option Contribution)}

theorem InRounds.finish (h : k.InRounds size programs r slot)
    (hprog : k.OnProgram size (programs r)) (hcur : k.op? = some op) {a : Answer}
    (ha : ∀ {c}, op.contribution? = some c →
      a = op.gathered r (round size programs (k.gathers (programs r))) ∧
        RoundFull size programs (k.gathers (programs r)))
    (slot' : Option (Option Contribution)) : (k.finish a).InRounds size programs r slot' where
  written := fun hm => by cases hm
  seen := fun hs => by cases hs
  answered := by
    intro i op' c b hop hc hb
    rcases getElem?_concat hb with hold | ⟨rfl, rfl⟩
    · exact h.answered hop hc hold
    · cases (hprog.getElem?_program hcur).symm.trans hop
      exact ha hc

theorem InRounds.enter (h : k.InRounds size programs r slot) {p : Phase}
    {slot' : Option (Option Contribution)}
    (hwritten : p.meeting? = some .gather →
      slot' = some ((contributions (programs r))[k.gathers (programs r)]?))
    (hseen : ∀ {slots}, p.slots? = some slots →
      slots = round size programs (k.gathers (programs r)) ∧
        RoundFull size programs (k.gathers (programs r))) :
    (k.enter p).InRounds size programs r slot' where
  written := hwritten
  seen := hseen
  answered := h.answered

end Rank

namespace World

/-- Every rank keeps to the rounds of its gathers. -/
structure InRounds (size : Nat) (programs : Nat → List Op) (w : World) : Prop where
  slots_length : w.slots.length = size
  rank : ∀ {r : Nat} {k : Rank}, w.ranks[r]? = some k →
    k.InRounds size programs r (w.slots[r]?)

variable {size : Nat} {programs : Nat → List Op} {w v : World} {r : Nat} {k : Rank} {op : Op}

theorem InRounds.of_set (h : w.InRounds size programs) {k' : Rank}
    (hk' : k'.InRounds size programs r (v.slots[r]?)) (hranks : v.ranks = w.ranks.set r k')
    (hlen : v.slots.length = w.slots.length)
    (hslots : ∀ p : Nat, p ≠ r → v.slots[p]? = w.slots[p]?) : v.InRounds size programs where
  slots_length := hlen.trans h.slots_length
  rank := by
    intro p kp hp
    rw [hranks] at hp
    refine forall_ranks_set (motive := fun p kp => kp.InRounds size programs p (v.slots[p]?)) hk'
      (fun hpr hp => ?_) hp
    rw [hslots _ hpr]
    exact h.rank hp

/-- The slots, read between the two rendezvous of a gather. -/
theorem slots_eq_round (h : w.InRounds size programs) (hstep : w.InStep programs)
    (hprogs : w.OnPrograms size programs) (haligned : Aligned size programs)
    (hk : w.ranks[r]? = some k) (hphase : k.phase = .ready) :
    w.slots = round size programs (k.gathers (programs r)) ∧
      RoundFull size programs (k.gathers (programs r)) := by
  have hall : ∀ p < size,
      w.slots[p]? = some ((contributions (programs p))[k.gathers (programs r)]?) ∧
      k.gathers (programs r) < (contributions (programs p)).length := by
    intro p hp
    obtain ⟨kp, hkp⟩ := hprogs.exists_rank hp
    obtain ⟨hgather, hmet⟩ := hstep.all_in_gather hprogs haligned hk hphase hkp
    have hsame : kp.gathers (programs p) = k.gathers (programs r) := by
      rw [Rank.gathers, Rank.gathers, length_contributions, length_contributions]
      exact congrArg (List.count .gather) hmet
    obtain ⟨op, hcur, hop⟩ := (hprogs.rank hkp).phase hgather
    obtain ⟨c, hc⟩ := Op.contribution?_of_meeting? hop
    have hcontrib := (hprogs.rank hkp).contributions_getElem? hcur hc
    have hwritten := (h.rank hkp).written hgather
    rw [hsame] at hcontrib hwritten
    exact ⟨hwritten, (List.getElem?_eq_some_iff.mp hcontrib).1⟩
  refine ⟨?_, fun p hp => (hall p hp).2⟩
  apply List.ext_getElem?
  intro p
  by_cases hp : p < size
  · rw [(hall p hp).1, round, List.getElem?_map, List.getElem?_range hp]
    rfl
  · rw [List.getElem?_eq_none (by rw [h.slots_length]; omega),
      List.getElem?_eq_none (by simp only [round, List.length_map, List.length_range]; omega)]

theorem InRounds.moves (h : w.InRounds size programs) (hstep : w.InStep programs)
    (hprogs : w.OnPrograms size programs) (haligned : Aligned size programs)
    (hk : w.ranks[r]? = some k) (hcur : k.op? = some op) (hmoves : w.Moves r k op v) :
    v.InRounds size programs := by
  have hstarts := op.plan_starts r w.size k.tickets
  have hr := h.rank hk
  have hprog := hprogs.rank hk
  have hfinish : ∀ {a : Answer}, op.meeting? ≠ some .gather →
      (k.finish a).InRounds size programs r (w.slots[r]?) := fun hop =>
    hr.finish hprog hcur (fun hc => absurd (Op.meeting?_of_contribution? hc) hop) _
  have hgathered : ∀ {slots}, k.phase.slots? = some slots →
      (k.finish (op.gathered r slots)).InRounds size programs r (w.slots[r]?) := fun hslots =>
    hr.finish hprog hcur
      (fun _ => ⟨by rw [(hr.seen hslots).1], (hr.seen hslots).2⟩) _
  have harrive : ∀ {through : Rank} {wait : Nat → Rank},
      through.InRounds size programs r (w.slots[r]?) →
      (∀ g, (wait g).InRounds size programs r (w.slots[r]?)) →
      (w.arrive r through wait).InRounds size programs := by
    intro through wait hthrough hwait
    unfold arrive
    split
    · exact h.of_set (hwait _) rfl rfl fun _ _ => rfl
    · exact h.of_set hthrough rfl rfl fun _ _ => rfl
  cases hmoves with
  | done a hphase hplan =>
      rw [hplan] at hstarts
      exact h.of_set (hfinish (by simp [hstarts.1])) rfl rfl fun _ _ => rfl
  | clock hphase hplan =>
      rw [hplan] at hstarts
      cases hstarts
      exact h.of_set (hfinish (by decide)) rfl rfl fun _ _ => rfl
  | barrier hphase hplan =>
      rw [hplan] at hstarts
      cases hstarts
      exact harrive (hfinish (by decide)) fun g =>
        hr.enter (fun hm => by cases hm) fun hs => by cases hs
  | write c hphase hplan =>
      rw [hplan] at hstarts
      have hslot : (w.slots.set r (some c))[r]? =
          some ((contributions (programs r))[k.gathers (programs r)]?) := by
        have hlt : r < w.slots.length := by
          rw [h.slots_length]
          exact hprogs.lt_size hk
        rw [List.getElem?_set_self hlt, hprog.contributions_getElem? hcur hstarts]
      exact h.of_set (hr.enter (fun _ => hslot) fun hs => by cases hs) rfl
        (List.length_set ..) fun p hpr => List.getElem?_set_ne (Ne.symm hpr)
  | send peer tag m hphase hplan =>
      rw [hplan] at hstarts
      obtain ⟨rfl, -⟩ := hstarts
      exact h.of_set (hfinish (by simp [Op.meeting?, Op.contribution?])) rfl rfl fun _ _ => rfl
  | receive source tag m rest hphase hplan hmail =>
      rw [hplan] at hstarts
      obtain ⟨n, t, buffer, rfl, -⟩ := hstarts
      exact h.of_set (hfinish (by simp [Op.meeting?, Op.contribution?])) rfl rfl fun _ _ => rfl
  | meet hphase =>
      have hslot := hr.written (by rw [hphase]; rfl)
      exact harrive (hr.enter (fun _ => hslot) fun hs => by cases hs) fun g =>
        hr.enter (fun _ => hslot) fun hs => by cases hs
  | pass g hphase hopen =>
      have hslot := hr.written (by rw [hphase]; rfl)
      exact h.of_set (hr.enter (p := .ready) (fun _ => hslot) fun hs => by cases hs) rfl rfl
        fun _ _ => rfl
  | look hphase =>
      have hslot := hr.written (by rw [hphase]; rfl)
      have hround := slots_eq_round h hstep hprogs haligned hk hphase
      refine h.of_set (hr.enter (p := .read w.slots) (fun _ => hslot) fun hs => ?_)
        rfl rfl fun _ _ => rfl
      cases hs
      exact hround
  | part slots hphase =>
      have hslot := hr.written (by rw [hphase]; rfl)
      have hslots : k.phase.slots? = some slots := by rw [hphase]; rfl
      exact harrive (hgathered hslots) fun g =>
        hr.enter (fun _ => hslot) fun hs => by cases hs; exact hr.seen hslots
  | leave g slots hphase hopen =>
      exact h.of_set (hgathered (by rw [hphase]; rfl)) rfl rfl fun _ _ => rfl
  | resume g hphase hopen =>
      have hop := hprog.meeting?_eq hcur (m := .barrier) (by rw [hphase]; rfl)
      exact h.of_set (hfinish (by simp [hop])) rfl rfl fun _ _ => rfl

theorem start_inRounds (size : Nat) (programs : List (List Op)) :
    (start size programs).InRounds (max size 1) fun r => programs.getD r [] where
  slots_length := by simp [start, launch]
  rank := by
    intro r k hk
    simp only [start, launch, List.getElem?_map, Option.map_eq_some_iff] at hk
    obtain ⟨p, -, rfl⟩ := hk
    exact ⟨fun hm => (by cases hm), fun hs => (by cases hs), fun _ _ ha => by simp at ha⟩

theorem inRounds_of_follow {size : Nat} {programs : List (List Op)} {rs : List Nat}
    (haligned : Aligned (max size 1) fun r => programs.getD r [])
    (hrun : (start size programs).follow rs = some w) :
    w.InRounds (max size 1) fun r => programs.getD r [] := by
  refine reached_induction (start_inRounds size programs) (fun hrun h hstep => ?_) hrun
  obtain ⟨k, op, hk, hcur, hmoves⟩ := moves_of_step? hstep
  exact h.moves (inStep_of_follow hrun) (onPrograms_of_follow hrun) haligned hk hcur hmoves

end World

/-! ### Reading a round -/

/-- What a gather of contributions of one type gives: all of them in the order of
the ranks, or an error that names the lowest rank that contributed something else.
`make` makes a contribution of the type, `first` is the rank of the first
contribution. -/
inductive Gathered {α : Type} (rank : Nat) (typeName : String) (make : α → Contribution)
    (first : Nat) (cs : List Contribution) : Except RunError (List α) → Prop
  | all (vs : List α) (hall : cs = vs.map make) : Gathered rank typeName make first cs (.ok vs)
  | mismatch (vs : List α) (c : Contribution) (rest : List Contribution)
      (hsplit : cs = vs.map make ++ c :: rest) (hother : ∀ v, c ≠ make v) :
      Gathered rank typeName make first cs
        (.error (.collectiveMismatch rank (.contribution (first + vs.length) typeName)))

theorem gathered_readSlots {α : Type} {rank : Nat} {typeName : String}
    {read : Contribution → Option α} {make : α → Contribution}
    (hread : ∀ c v, read c = some v ↔ c = make v) (first : Nat) (cs : List Contribution) :
    Gathered rank typeName make first cs (readSlots rank typeName read first (cs.map some)) := by
  induction cs generalizing first with
  | nil => exact .all [] rfl
  | cons c cs ih =>
      rw [List.map_cons, readSlots, Option.bind_some]
      cases hc : read c with
      | none =>
          refine .mismatch [] c cs rfl fun v hv => ?_
          rw [(hread c v).mpr hv] at hc
          cases hc
      | some v =>
          obtain rfl := (hread c v).mp hc
          have hrest := ih (first + 1)
          generalize readSlots rank typeName read (first + 1) (cs.map some) = res at hrest ⊢
          cases hrest with
          | all vs hall => exact .all (v :: vs) (by rw [hall, List.map_cons])
          | mismatch vs d rest hsplit hother =>
              rw [show first + 1 + vs.length = first + (v :: vs).length by
                rw [List.length_cons]; omega]
              exact .mismatch (v :: vs) d rest (by rw [hsplit, List.map_cons, List.cons_append])
                hother

theorem Contribution.scalar?_eq_some_iff {t : ElementType} {c : Contribution} {v : t.Carrier} :
    c.scalar? t = some v ↔ c = .scalar t v := by
  cases c with
  | scalar u x =>
      simp only [Contribution.scalar?]
      by_cases h : u = t
      · subst h
        simp
      · simp only [dif_neg h, reduceCtorEq, false_iff]
        intro heq
        injection heq with hu
        exact h hu
  | vector u xs => simp [Contribution.scalar?]

theorem Contribution.vector?_eq_some_iff {t : ElementType} {c : Contribution}
    {vs : List t.Carrier} : c.vector? t = some vs ↔ c = .vector t vs := by
  cases c with
  | scalar u x => simp [Contribution.vector?]
  | vector u xs =>
      simp only [Contribution.vector?]
      by_cases h : u = t
      · subst h
        simp
      · simp only [dif_neg h, reduceCtorEq, false_iff]
        intro heq
        injection heq with hu
        exact h hu

/-- The answer of a collective that gets no list to compute with. Its buffer is as before. -/
def Op.unserved (e : RunError) : Op → Answer
  | .reduce t _ | .exclusiveScan t _ => .value t (.error (.failed e))
  | .arrayReduce t data => .buffer t (.error (.failed e)) data
  | .cumulativeSum t _ output => .buffer t (.error (.failed e)) output
  | _ => .nothing

/-- What a rank answers to a collective to which the ranks contribute `cs`. It computes with
the values of all ranks, in their order, if they all are of its own type, and else names the
lowest rank that contributed something else. -/
inductive Concludes (rank : Nat) (cs : List Contribution) : Op → Answer → Prop
  | reduce {t : ElementType} (v : t.Carrier) {vs : List t.Carrier}
      (hall : cs = vs.map (.scalar t)) :
      Concludes rank cs (.reduce t v) (.value t ((t.sum vs).mapError .fault))
  | exclusiveScan {t : ElementType} (v : t.Carrier) {vs : List t.Carrier}
      (hall : cs = vs.map (.scalar t)) :
      Concludes rank cs (.exclusiveScan t v) (.value t ((t.sum (vs.take rank)).mapError .fault))
  | arrayReduce {t : ElementType} {data : List t.Carrier} {rows : List (List t.Carrier)}
      (hall : cs = rows.map (.vector t)) (hlength : ∀ row ∈ rows, row.length = data.length) :
      Concludes rank cs (.arrayReduce t data)
        (.buffer t ((t.columnSums rows 0 data).1.mapError .fault) (t.columnSums rows 0 data).2)
  | otherLength {t : ElementType} {data : List t.Carrier} {rows : List (List t.Carrier)}
      {peer : Nat} {row : List t.Carrier} (hall : cs = rows.map (.vector t))
      (hrow : rows[peer]? = some row) (hlength : row.length ≠ data.length)
      (hfirst : ∀ other ∈ rows.take peer, other.length = data.length) :
      Concludes rank cs (.arrayReduce t data) (.buffer t (.error (.failed
        (.collectiveMismatch rank (.arrayLength data.length peer row.length)))) data)
  | cumulativeSum {t : ElementType} {input output vs : List t.Carrier} {start : t.Carrier}
      (hall : cs = vs.map (.scalar t)) (hstart : t.sum (vs.take rank) = .ok start) :
      Concludes rank cs (.cumulativeSum t input output)
        (.buffer t ((t.runningSums start input output).1.mapError .fault)
          (t.runningSums start input output).2)
  | startOverflow {t : ElementType} {input output vs : List t.Carrier} {f : Fault}
      (hall : cs = vs.map (.scalar t)) (hstart : t.sum (vs.take rank) = .error f) :
      Concludes rank cs (.cumulativeSum t input output) (.buffer t (.error (.fault f)) output)
  | otherScalar {op : Op} {t : ElementType} {v : t.Carrier} {vs : List t.Carrier}
      {c : Contribution} {rest : List Contribution} (hown : op.contribution? = some (.scalar t v))
      (hsplit : cs = vs.map (.scalar t) ++ c :: rest) (hother : ∀ v, c ≠ .scalar t v) :
      Concludes rank cs op (op.unserved
        (.collectiveMismatch rank (.contribution vs.length (Contribution.scalarTypeName t))))
  | otherVector {op : Op} {t : ElementType} {data : List t.Carrier} {rows : List (List t.Carrier)}
      {c : Contribution} {rest : List Contribution}
      (hown : op.contribution? = some (.vector t data))
      (hsplit : cs = rows.map (.vector t) ++ c :: rest) (hother : ∀ row, c ≠ .vector t row) :
      Concludes rank cs op (op.unserved
        (.collectiveMismatch rank (.contribution rows.length (Contribution.vectorTypeName t))))

theorem gatheredScalars_cases (rank : Nat) (t : ElementType) (cs : List Contribution) :
    (∃ vs : List t.Carrier,
      gatheredScalars rank t (cs.map some) = .ok vs ∧ cs = vs.map (.scalar t)) ∨
    ∃ (vs : List t.Carrier) (c : Contribution) (rest : List Contribution),
      gatheredScalars rank t (cs.map some) = .error
        (.collectiveMismatch rank (.contribution vs.length (Contribution.scalarTypeName t))) ∧
      cs = vs.map (.scalar t) ++ c :: rest ∧ ∀ v, c ≠ .scalar t v := by
  have h : Gathered rank (Contribution.scalarTypeName t) (.scalar t) 0 cs
      (gatheredScalars rank t (cs.map some)) :=
    gathered_readSlots (fun _ _ => Contribution.scalar?_eq_some_iff) 0 cs
  generalize gatheredScalars rank t (cs.map some) = res at h ⊢
  cases h with
  | all vs hall => exact .inl ⟨vs, rfl, hall⟩
  | mismatch vs c rest hsplit hother =>
      rw [Nat.zero_add]
      exact .inr ⟨vs, c, rest, rfl, hsplit, hother⟩

theorem gatheredVectors_cases (rank : Nat) (t : ElementType) (cs : List Contribution) :
    (∃ rows : List (List t.Carrier),
      gatheredVectors rank t (cs.map some) = .ok rows ∧ cs = rows.map (.vector t)) ∨
    ∃ (rows : List (List t.Carrier)) (c : Contribution) (rest : List Contribution),
      gatheredVectors rank t (cs.map some) = .error
        (.collectiveMismatch rank (.contribution rows.length (Contribution.vectorTypeName t))) ∧
      cs = rows.map (.vector t) ++ c :: rest ∧ ∀ row, c ≠ .vector t row := by
  have h : Gathered rank (Contribution.vectorTypeName t) (.vector t) 0 cs
      (gatheredVectors rank t (cs.map some)) :=
    gathered_readSlots (fun _ _ => Contribution.vector?_eq_some_iff) 0 cs
  generalize gatheredVectors rank t (cs.map some) = res at h ⊢
  cases h with
  | all rows hall => exact .inl ⟨rows, rfl, hall⟩
  | mismatch rows c rest hsplit hother =>
      rw [Nat.zero_add]
      exact .inr ⟨rows, c, rest, rfl, hsplit, hother⟩

theorem lengthMismatch?_eq_none {α : Type} {length : Nat} {rows : List (List α)}
    (h : lengthMismatch? length rows = none) : ∀ row ∈ rows, row.length = length := by
  unfold lengthMismatch? at h
  split at h
  · cases h
  · rename_i hnone
    simpa using hnone

theorem lengthMismatch?_eq_some {α : Type} {length peer n : Nat} {rows : List (List α)}
    (h : lengthMismatch? length rows = some (peer, n)) :
    ∃ row, rows[peer]? = some row ∧ n = row.length ∧ n ≠ length ∧
      ∀ other ∈ rows.take peer, other.length = length := by
  unfold lengthMismatch? at h
  split at h
  · rename_i first hfirst
    cases h
    obtain ⟨hlt, hother, hbefore⟩ := List.findIdx?_eq_some_iff_getElem.mp hfirst
    have hrow : rows[peer]? = some rows[peer] := List.getElem?_eq_getElem hlt
    refine ⟨_, hrow, ?_, ?_, fun other hmem => ?_⟩
    · rw [List.getD_eq_getElem?_getD, hrow, Option.getD_some]
    · rw [List.getD_eq_getElem?_getD, hrow, Option.getD_some]
      simpa using hother
    · obtain ⟨i, hi, rfl⟩ := List.mem_take_iff_getElem.mp hmem
      simpa using hbefore i (by omega)
  · cases h

theorem exclusiveScanAnswer_cases (rank : Nat) (t : ElementType) (cs : List Contribution) :
    (∃ vs : List t.Carrier, cs = vs.map (.scalar t) ∧ exclusiveScanAnswer rank t (cs.map some) =
        (t.sum (vs.take rank)).mapError .fault) ∨
    ∃ (vs : List t.Carrier) (c : Contribution) (rest : List Contribution),
      cs = vs.map (.scalar t) ++ c :: rest ∧ (∀ v, c ≠ .scalar t v) ∧
      exclusiveScanAnswer rank t (cs.map some) = .error (.failed
        (.collectiveMismatch rank (.contribution vs.length (Contribution.scalarTypeName t)))) := by
  unfold exclusiveScanAnswer
  rcases gatheredScalars_cases rank t cs with ⟨vs, hvs, hall⟩ | ⟨vs, c, rest, hvs, hsplit, hother⟩
  · rw [hvs]
    exact .inl ⟨vs, hall, rfl⟩
  · rw [hvs]
    exact .inr ⟨vs, c, rest, hsplit, hother, rfl⟩

/-- The answer of a collective is the one that the contributions of all ranks call for. -/
theorem Op.concludes_gathered {op : Op} {c : Contribution} (h : op.contribution? = some c)
    (rank : Nat) (cs : List Contribution) :
    Concludes rank cs op (op.gathered rank (cs.map some)) := by
  cases op with
  | reduce t v =>
      simp only [gathered, reduceAnswer]
      rcases gatheredScalars_cases rank t cs with
        ⟨vs, hvs, hall⟩ | ⟨vs, d, rest, hvs, hsplit, hother⟩
      · rw [hvs]
        exact .reduce v hall
      · rw [hvs]
        exact .otherScalar (v := v) rfl hsplit hother
  | exclusiveScan t v =>
      simp only [gathered]
      rcases exclusiveScanAnswer_cases rank t cs with
        ⟨vs, hall, hanswer⟩ | ⟨vs, d, rest, hsplit, hother, hanswer⟩
      · rw [hanswer]
        exact .exclusiveScan v hall
      · rw [hanswer]
        exact .otherScalar (v := v) rfl hsplit hother
  | arrayReduce t data =>
      simp only [gathered, arrayReduceAnswer]
      rcases gatheredVectors_cases rank t cs with
        ⟨rows, hrows, hall⟩ | ⟨rows, d, rest, hrows, hsplit, hother⟩
      · rw [hrows]
        cases hlength : lengthMismatch? data.length rows with
        | none =>
            simp only [hlength]
            exact .arrayReduce hall (lengthMismatch?_eq_none hlength)
        | some found =>
            obtain ⟨peer, n⟩ := found
            obtain ⟨row, hrow, rfl, hne, hfirst⟩ := lengthMismatch?_eq_some hlength
            simp only [hlength]
            exact .otherLength hall hrow hne hfirst
      · have hown : (arrayReduce t data).contribution? = some (.vector t data) := rfl
        rw [hrows]
        exact .otherVector hown hsplit hother
  | cumulativeSum t input output =>
      simp only [gathered, cumulativeSumAnswer]
      rcases exclusiveScanAnswer_cases rank t cs with
        ⟨vs, hall, hanswer⟩ | ⟨vs, d, rest, hsplit, hother, hanswer⟩
      · rw [hanswer]
        cases hstart : t.sum (vs.take rank) with
        | error f => exact .startOverflow hall hstart
        | ok start => exact .cumulativeSum hall hstart
      · rw [hanswer]
        obtain ⟨total, rfl⟩ : ∃ total, c = .scalar t total := by
          simp only [contribution?] at h
          split at h
          · cases h
          · split at h <;> cases h
            exact ⟨_, rfl⟩
        exact .otherScalar h hsplit hother
  | _ => cases h

/-! ### Completed gathers -/

/-- The contributions of all ranks, in their order, to their gathers with the given
number. -/
def IsRound (size : Nat) (programs : Nat → List Op) (n : Nat) (cs : List Contribution) : Prop :=
  cs.length = size ∧ ∀ p < size, (contributions (programs p))[n]? = cs[p]?

theorem RoundFull.exists_isRound {size : Nat} {programs : Nat → List Op} {n : Nat}
    (h : RoundFull size programs n) :
    ∃ cs, IsRound size programs n cs ∧ round size programs n = cs.map some := by
  have hsome : ∀ slot ∈ round size programs n, slot.isSome := by
    intro slot hslot
    obtain ⟨p, hp, rfl⟩ := List.mem_map.mp hslot
    rw [List.getElem?_eq_getElem (h p (List.mem_range.mp hp))]
    rfl
  obtain ⟨cs, hcs⟩ : ∃ cs : List Contribution, round size programs n = cs.map some := by
    generalize round size programs n = slots at hsome
    induction slots with
    | nil => exact ⟨[], rfl⟩
    | cons slot slots ih =>
        obtain ⟨c, rfl⟩ := Option.isSome_iff_exists.mp (hsome slot List.mem_cons_self)
        obtain ⟨cs, rfl⟩ := ih fun s hs => hsome s (List.mem_cons_of_mem _ hs)
        exact ⟨c :: cs, rfl⟩
  have hlen : cs.length = size := by
    rw [← List.length_map (f := some), ← hcs, round, List.length_map, List.length_range]
  refine ⟨cs, ⟨hlen, fun p hp => ?_⟩, hcs⟩
  have hget : (round size programs n)[p]? = (cs.map some)[p]? := by rw [hcs]
  rw [round, List.getElem?_map, List.getElem?_range hp, List.getElem?_map, Option.map_some] at hget
  cases hc : cs[p]? with
  | none => rw [hc] at hget; cases hget
  | some c =>
      rw [hc, Option.map_some] at hget
      exact Option.some.inj hget

/-- A rank that has completed its gather with a number answered what the contributions of
all ranks to their own gathers with this number call for. The slots that a rank has read and
not yet answered from are those of its current gather. -/
theorem World.InRounds.concludes {size : Nat} {programs : Nat → List Op} {w : World}
    (h : w.InRounds size programs) {r : Nat} {k : Rank} (hk : w.ranks[r]? = some k) :
    (∀ {i : Nat} {op : Op} {c : Contribution}, (programs r)[i]? = some op →
      op.contribution? = some c → i < k.answers.length →
      ∃ cs a, IsRound size programs (contributions ((programs r).take i)).length cs ∧
        k.answers[i]? = some a ∧ Concludes r cs op a) ∧
    ∀ {slots : Slots}, k.phase.slots? = some slots →
      ∃ cs, IsRound size programs (k.gathers (programs r)) cs ∧ slots = cs.map some := by
  have hrank := h.rank hk
  constructor
  · intro i op c hop hc hi
    have hget : k.answers[i]? = some k.answers[i] := List.getElem?_eq_getElem hi
    obtain ⟨hanswer, hfull⟩ := hrank.answered hop hc hget
    obtain ⟨cs, hround, hcs⟩ := hfull.exists_isRound
    refine ⟨cs, _, hround, hget, ?_⟩
    rw [hanswer, hcs]
    exact Op.concludes_gathered hc r cs
  · intro slots hslots
    obtain ⟨hseen, hfull⟩ := hrank.seen hslots
    obtain ⟨cs, hround, hcs⟩ := hfull.exists_isRound
    exact ⟨cs, hround, hseen.trans hcs⟩

end SpmdArrays.Spmd
