import SpmdArrays.Proofs.Spmd.Schedules

/-!
Programs whose operations depend on earlier answers.

Which operations a rank does is known only in hindsight (`World.ops`). In hindsight a run is a
run of fixed operations: nothing in a step looks at how the current operation was made
(`World.literal`). So what holds of every run of fixed operations, such as that gathers never
mix their rounds, holds of every run.

That the answers do not depend on the interleaving is a statement about two runs, and another
run might make other operations. It does not, step by step: as long as its ranks have been
answered what they are answered in the first run, their next operations are those of the first
run, and for these it is known that the next answers are the same (`World.grows_of_complete`).
-/

namespace SpmdArrays.Spmd

/-! ### Operations in hindsight -/

/-- The operations that a rank has done, and the current one. -/
def Rank.ops (k : Rank) : List Op :=
  (List.range (k.answers.length + 1)).filterMap fun n => k.program.op? (k.answers.take n)

def World.ops (w : World) (r : Nat) : List Op := (w.ranks[r]?.map Rank.ops).getD []

/-- Every answer of the rank was given to an operation of its program. -/
def Rank.Stepwise (k : Rank) : Prop :=
  ∀ n < k.answers.length, ∃ op, k.program.op? (k.answers.take n) = some op

theorem Rank.Stepwise.getElem?_ops {k : Rank} (h : k.Stepwise) {n : Nat}
    (hn : n ≤ k.answers.length) : k.ops[n]? = k.program.op? (k.answers.take n) := by
  have hfront : ∀ m ≤ k.answers.length,
      ((List.range m).filterMap fun n => k.program.op? (k.answers.take n)).length = m := by
    intro m hm
    induction m with
    | zero => rfl
    | succ m ih =>
        obtain ⟨op, hop⟩ := h m (by omega)
        rw [List.range_succ, filterMap_concat, List.length_append, ih (by omega), hop]
        rfl
  have htake : (List.range (k.answers.length + 1)).take n = List.range n := by
    rw [List.take_range, Nat.min_eq_left (by omega)]
  cases hop : k.program.op? (k.answers.take n) with
  | some op =>
      have hget := filterMap_getElem?_of_getElem? (f := fun n => k.program.op? (k.answers.take n))
        (List.getElem?_range (show n < k.answers.length + 1 by omega)) hop
      rwa [htake, hfront n hn] at hget
  | none =>
      -- only the operation after the last answer can be missing
      have hlast : n = k.answers.length := by
        refine Nat.le_antisymm hn (Nat.le_of_not_lt fun hlt => ?_)
        obtain ⟨op, hsome⟩ := h n hlt
        cases hop.symm.trans hsome
      subst hlast
      refine List.getElem?_eq_none (Nat.le_of_eq ?_)
      rw [ops, List.range_succ, filterMap_concat, hop, Option.toList_none, List.append_nil,
        hfront _ hn]

namespace World

variable {u v w : World} {r : Nat} {k : Rank} {op : Op}

/-- A later state of the same ranks: they have the same programs and have got no other
answers. -/
def Grows (u w : World) : Prop :=
  w.size = u.size ∧ ∀ ⦃r : Nat⦄ ⦃j k : Rank⦄, u.ranks[r]? = some j → w.ranks[r]? = some k →
    k.program = j.program ∧ j.answers <+: k.answers

theorem Grows.refl (w : World) : w.Grows w := by
  refine ⟨rfl, fun r j k hj hk => ?_⟩
  cases hj.symm.trans hk
  exact ⟨rfl, List.prefix_rfl⟩

theorem exists_rank_of_size (h : w.size = u.size) (hk : u.ranks[r]? = some k) :
    ∃ k', w.ranks[r]? = some k' := by
  have hlt : r < w.size := by
    rw [h]
    exact (List.getElem?_eq_some_iff.mp hk).1
  exact ⟨_, List.getElem?_eq_getElem hlt⟩

theorem Grows.trans (huv : u.Grows v) (hvw : v.Grows w) : u.Grows w := by
  refine ⟨hvw.1.trans huv.1, fun r j k hj hk => ?_⟩
  obtain ⟨i, hi⟩ := exists_rank_of_size huv.1 hj
  obtain ⟨hprogram, hanswers⟩ := huv.2 hj hi
  obtain ⟨hprogram', hanswers'⟩ := hvw.2 hi hk
  exact ⟨hprogram'.trans hprogram, hanswers.trans hanswers'⟩

/-- An action changes one rank: it goes on inside its operation, or gets one more answer. -/
theorem Moves.exists_set (hmoves : w.Moves r k op v) :
    ∃ k', v.ranks = w.ranks.set r k' ∧ k'.program = k.program ∧
      (k'.answers = k.answers ∨ ∃ a, k'.answers = k.answers ++ [a]) := by
  have harrive : ∀ {through : Rank} {phase : Nat → Phase}, through.program = k.program →
      (through.answers = k.answers ∨ ∃ a, through.answers = k.answers ++ [a]) →
      ∃ k', (w.arrive r through fun g => k.enter (phase g)).ranks = w.ranks.set r k' ∧
        k'.program = k.program ∧ (k'.answers = k.answers ∨ ∃ a, k'.answers = k.answers ++ [a]) := by
    intro through phase hprogram hanswers
    rcases w.arrive_ranks r through fun g => k.enter (phase g) with h | h
    · exact ⟨_, h, hprogram, hanswers⟩
    · exact ⟨_, h, rfl, .inl rfl⟩
  cases hmoves with
  | barrier | part => exact harrive rfl (.inr ⟨_, rfl⟩)
  | meet => exact harrive rfl (.inl rfl)
  | done | clock | send | receive | leave | resume => exact ⟨_, rfl, rfl, .inr ⟨_, rfl⟩⟩
  | write | pass | look => exact ⟨_, rfl, rfl, .inl rfl⟩

theorem grows_of_step? (h : w.step? r = some v) : w.Grows v := by
  obtain ⟨k, op, hk, -, hmoves⟩ := moves_of_step? h
  obtain ⟨k', hranks, hprogram, hanswers⟩ := hmoves.exists_set
  refine ⟨by rw [World.size, hranks, List.length_set]; rfl, fun p j i hj hi => ?_⟩
  rw [hranks] at hi
  by_cases hp : p = r
  · subst hp
    cases hk.symm.trans hj
    rw [List.getElem?_set_self (List.getElem?_eq_some_iff.mp hk).1] at hi
    cases hi
    refine ⟨hprogram, ?_⟩
    rcases hanswers with hsame | ⟨a, hmore⟩
    · exact hsame ▸ List.prefix_rfl
    · rw [hmore]
      exact List.prefix_append ..
  · rw [List.getElem?_set_ne (Ne.symm hp)] at hi
    cases hj.symm.trans hi
    exact ⟨rfl, List.prefix_rfl⟩

theorem grows_of_follow {rs : List Nat} (h : w.follow rs = some v) : w.Grows v :=
  follow_induction (motive := w.Grows) (fun hgrows hstep => hgrows.trans (grows_of_step? hstep)) h
    (Grows.refl w)

def Stepwise (w : World) : Prop := ∀ ⦃r : Nat⦄ ⦃k : Rank⦄, w.ranks[r]? = some k → k.Stepwise

theorem Stepwise.step (h : w.Stepwise) (hstep : w.step? r = some v) : v.Stepwise := by
  obtain ⟨k, op, hk, hcur, hmoves⟩ := moves_of_step? hstep
  obtain ⟨k', hranks, hprogram, hanswers⟩ := hmoves.exists_set
  have hk' : k'.Stepwise := by
    intro n hn
    rw [hprogram]
    rcases hanswers with hsame | ⟨a, hmore⟩
    · rw [hsame] at hn ⊢
      exact h hk n hn
    · rw [hmore, List.length_append, List.length_singleton] at hn
      rw [hmore, List.take_append_of_le_length (by omega)]
      rcases Nat.lt_or_eq_of_le (Nat.le_of_lt_succ hn) with hlt | rfl
      · exact h hk n hlt
      · rw [List.take_length]
        exact ⟨op, hcur⟩
  intro p kp hp
  rw [hranks] at hp
  exact forall_ranks_set (motive := fun _ kp => kp.Stepwise) hk' (fun _ hp => h hp) hp

theorem stepwise_of_follow {size : Nat} {programs : Nat → Program} {rs : List Nat}
    (hrun : (launch size programs).follow rs = some w) : w.Stepwise := by
  refine follow_induction (motive := Stepwise) Stepwise.step hrun fun r k hk => ?_
  simp only [launch, List.getElem?_map, Option.map_eq_some_iff] at hk
  obtain ⟨p, -, rfl⟩ := hk
  intro n hn
  cases hn

/-- The current operations of all ranks are the given ones. -/
def Performs (ops : Nat → List Op) (w : World) : Prop :=
  ∀ ⦃r : Nat⦄ ⦃k : Rank⦄, w.ranks[r]? = some k → k.op? = (ops r)[k.answers.length]?

/-- On the way to a world, the ranks perform the operations that they have in hindsight. -/
theorem Grows.performs (h : u.Grows w) (hw : w.Stepwise) : u.Performs w.ops := by
  intro r j hj
  obtain ⟨k, hk⟩ := exists_rank_of_size h.1 hj
  obtain ⟨hprogram, hanswers⟩ := h.2 hj hk
  rw [ops, hk, Option.map_some, Option.getD_some, (hw hk).getElem?_ops hanswers.length_le,
    hprogram, ← List.prefix_iff_eq_take.mp hanswers]
  rfl

end World

/-! ### Operations that are fixed -/

namespace Rank

/-- The rank, as if its operations had been fixed beforehand. -/
def literal (ops : List Op) (k : Rank) : Rank := { k with program := .ofOps ops }

theorem finish_literal (ops : List Op) (k : Rank) (a : Answer) :
    (k.literal ops).finish a = (k.finish a).literal ops := rfl

theorem enter_literal (ops : List Op) (k : Rank) (p : Phase) :
    (k.literal ops).enter p = (k.enter p).literal ops := rfl

theorem op?_literal (ops : List Op) (k : Rank) : (k.literal ops).op? = ops[k.answers.length]? :=
  Program.op?_ofOps ops k.answers

end Rank

namespace World

variable {u v w : World} {r : Nat} {k : Rank} {op : Op} {ops : Nat → List Op}

def literal (ops : Nat → List Op) (w : World) : World :=
  { w with ranks := w.ranks.mapIdx fun r k => k.literal (ops r) }

theorem literal_rank (ops : Nat → List Op) (w : World) (r : Nat) :
    (w.literal ops).ranks[r]? = w.ranks[r]?.map (Rank.literal (ops r)) :=
  List.getElem?_mapIdx

theorem literal_size (ops : Nat → List Op) (w : World) : (w.literal ops).size = w.size :=
  List.length_mapIdx

theorem literal_setRank (ops : Nat → List Op) (w : World) (r : Nat) (k : Rank) :
    (w.setRank r k).literal ops = (w.literal ops).setRank r (k.literal (ops r)) := by
  simp only [literal, setRank, List.mapIdx_set]

theorem literal_arrive (ops : Nat → List Op) (w : World) (r : Nat) (through : Rank)
    (wait : Nat → Rank) :
    (w.arrive r through wait).literal ops =
      (w.literal ops).arrive r (through.literal (ops r)) fun g => (wait g).literal (ops r) := by
  rw [arrive, arrive, literal_size, ← literal_setRank, ← literal_setRank]
  change literal ops (if w.arrived + 1 < w.size then _ else _) =
    if w.arrived + 1 < w.size then _ else _
  split <;> rfl

theorem begin_literal (ops : Nat → List Op) (w : World) (r : Nat) (k : Rank) (op : Op) :
    (w.literal ops).begin r (k.literal (ops r)) op = (w.begin r k op).map (literal ops) := by
  have hplan : op.plan r (w.literal ops).size (k.literal (ops r)).tickets =
      op.plan r w.size k.tickets := by
    rw [literal_size]
    rfl
  have hmail : (w.literal ops).mail = w.mail := rfl
  unfold begin
  simp only [hplan, hmail, Rank.finish_literal, Rank.enter_literal, ← literal_setRank,
    ← literal_arrive]
  cases op.plan r w.size k.tickets with
  | done | clock | barrier | gather | send => rfl
  | receive source tag =>
      simp only
      cases w.mail ⟨source, r, tag⟩ <;> rfl

/-- A step does not depend on how the current operation was made. -/
theorem Performs.step?_literal (h : w.Performs ops) (r : Nat) :
    (w.literal ops).step? r = (w.step? r).map (literal ops) := by
  have hgeneration : (w.literal ops).generation = w.generation := rfl
  unfold step?
  rw [literal_rank]
  cases hk : w.ranks[r]? with
  | none => rfl
  | some k =>
      have hphase : (k.literal (ops r)).phase = k.phase := rfl
      simp only [Option.map_some, Rank.op?_literal, ← h hk]
      cases k.op? with
      | none => rfl
      | some op =>
          simp only [hphase, hgeneration, Rank.finish_literal, Rank.enter_literal,
            ← literal_setRank, ← literal_arrive]
          cases k.phase with
          | start => exact begin_literal ops w r k op
          | written | ready | read => rfl
          | gathering g | leaving g | waiting g =>
              simp only
              split <;> rfl

theorem Performs.complete_literal (h : w.Performs ops) (hcomplete : w.Complete) :
    (w.literal ops).Complete := by
  intro r
  rw [h.step?_literal, hcomplete r]
  rfl

def fixed (size : Nat) (ops : Nat → List Op) : World :=
  start size ((List.range (max size 1)).map ops)

theorem launch_literal (size : Nat) (programs : Nat → Program) (ops : Nat → List Op) :
    (launch size programs).literal ops = fixed size ops := by
  have hranks : ((List.range (max size 1)).map fun r => ({ program := programs r } : Rank)).mapIdx
      (fun r k => k.literal (ops r)) = (List.range (max size 1)).map fun r =>
        { program := .ofOps (((List.range (max size 1)).map ops).getD r []) } := by
    apply List.ext_getElem?
    intro r
    rw [List.getElem?_mapIdx, List.getElem?_map, List.getElem?_map]
    by_cases hr : r < max size 1
    · simp [List.getElem?_range hr, Rank.literal]
    · rw [List.getElem?_eq_none (by rw [List.length_range]; exact Nat.le_of_not_lt hr)]
      rfl
  rw [literal, fixed, start, launch, launch]
  simp only [hranks]

/-- In hindsight, a run is a run of fixed operations. -/
theorem follow_literal {rs : List Nat} (hw : w.Stepwise) (h : u.follow rs = some w) :
    (u.literal w.ops).follow rs = some (w.literal w.ops) := by
  induction rs generalizing u with
  | nil =>
      cases h
      rfl
  | cons r rs ih =>
      have hperforms := (grows_of_follow h).performs hw
      simp only [follow] at h ⊢
      rw [hperforms.step?_literal]
      split at h
      · cases h
      · rename_i v hv
        rw [hv]
        exact ih h

variable {size : Nat} {programs : Nat → Program} {rs rs' : List Nat}

theorem size_of_follow (hrun : (launch size programs).follow rs = some w) :
    w.size = max size 1 := by
  rw [(grows_of_follow hrun).1]
  simp [World.size, launch]

theorem fixed_ops (hrun : (launch size programs).follow rs = some w) :
    (fun r => ((List.range (max size 1)).map w.ops).getD r []) = w.ops := by
  funext r
  rw [List.getD_eq_getElem?_getD, List.getElem?_map]
  by_cases hr : r < max size 1
  · rw [List.getElem?_range hr]
    rfl
  · have hsize := size_of_follow hrun
    rw [World.size] at hsize
    rw [List.getElem?_eq_none (by rw [List.length_range]; exact Nat.le_of_not_lt hr), ops,
      List.getElem?_eq_none (by omega)]
    rfl

theorem follow_fixed (hrun : (launch size programs).follow rs = some w) :
    (fixed size w.ops).follow rs = some (w.literal w.ops) := by
  rw [← launch_literal size programs]
  exact follow_literal (stepwise_of_follow hrun) hrun

/-- No run takes a rank further than a complete one, or gives it another answer on the way. -/
theorem grows_of_complete (haligned : Aligned (max size 1) w.ops)
    (htime : ∀ r < max size 1, Op.time ∉ w.ops r)
    (hrun : (launch size programs).follow rs = some w) (hcomplete : w.Complete)
    (hrun' : (launch size programs).follow rs' = some u) :
    (∃ qs, (fixed size w.ops).follow qs = some (u.literal w.ops)) ∧ u.Grows w := by
  have hw := stepwise_of_follow hrun
  have hfixed := follow_fixed hrun
  have hends := ((Grows.refl w).performs hw).complete_literal hcomplete
  have hsame := fixed_ops hrun
  refine follow_induction (motive := fun u =>
    (∃ qs, (fixed size w.ops).follow qs = some (u.literal w.ops)) ∧ u.Grows w) ?_ hrun'
    ⟨⟨[], by rw [launch_literal]; rfl⟩, grows_of_follow hrun⟩
  rintro u v r ⟨⟨qs, hqs⟩, hgrows⟩ hstep
  -- the step is one of the fixed operations
  have hstep' : (u.literal w.ops).step? r = some (v.literal w.ops) := by
    rw [(hgrows.performs hw).step?_literal, hstep]
    rfl
  have hv := follow_concat hqs hstep'
  refine ⟨⟨_, hv⟩, ?_⟩
  have hnext := grows_of_step? hstep
  refine ⟨hgrows.1.trans hnext.1.symm, fun p j k hj hk => ?_⟩
  obtain ⟨i, hi⟩ := exists_rank_of_size hnext.1.symm hj
  refine ⟨(hgrows.2 hi hk).1.trans (hnext.2 hi hj).1.symm, ?_⟩
  -- and has the answer that is known for them
  have hj' : (v.literal w.ops).ranks[p]? = some (j.literal (w.ops p)) := by
    rw [literal_rank, hj, Option.map_some]
  have hk' : (w.literal w.ops).ranks[p]? = some (k.literal (w.ops p)) := by
    rw [literal_rank, hk, Option.map_some]
  have hlen : j.answers.length ≤ k.answers.length := by
    have hbehind := behind_of_complete hfixed hends hv hj' hk'
    simp only [Rank.Behind, Rank.literal] at hbehind
    omega
  rw [List.prefix_iff_eq_take]
  apply List.ext_getElem
  · rw [List.length_take]
    omega
  · intro n hn hn'
    rw [List.getElem_take]
    refine answered_eq_of_follow (by rwa [hsame]) ?_ hv hfixed hj' hk'
      (List.getElem?_eq_getElem hn) (List.getElem?_eq_getElem (Nat.lt_of_lt_of_le hn hlen))
    intro r hr
    rw [congrFun hsame r]
    exact htime r hr

theorem complete_of_op? (h : ∀ k ∈ w.ranks, k.op? = none) : w.Complete := by
  intro r
  cases hk : w.ranks[r]? with
  | none => simp [step?, hk]
  | some k => simp [step?, hk, h k (List.mem_of_getElem? hk)]

end World

/-! ### Every run -/

/-- When a rank has completed its gather with a number, all ranks have contributed to their
own gathers with this number, and the answer of the rank is the one that these contributions,
in the order of the ranks, call for. This is so in every run in which the operations that the
ranks have come to agree on the kind of every meeting. The slots that a rank has read and not
yet answered from are those of its current gather. -/
theorem World.completed_gather {size : Nat} {programs : Nat → Program} {rs : List Nat} {w : World}
    (haligned : Aligned (max size 1) w.ops)
    (hrun : (World.launch size programs).follow rs = some w) {r : Nat} {k : Rank}
    (hk : w.ranks[r]? = some k) :
    (∀ {i : Nat} {op : Op} {c : Contribution}, (w.ops r)[i]? = some op →
      op.contribution? = some c → i < k.answers.length →
      ∃ cs a, IsRound (max size 1) w.ops (contributions ((w.ops r).take i)).length cs ∧
        k.answers[i]? = some a ∧ Concludes r cs op a) ∧
    ∀ {slots : Slots}, k.phase.slots? = some slots →
      ∃ cs, IsRound (max size 1) w.ops (k.gathers (w.ops r)) cs ∧ slots = cs.map some := by
  have hrounds := inRounds_of_follow (by rwa [fixed_ops hrun]) (follow_fixed hrun)
  rw [fixed_ops hrun] at hrounds
  have hk' : (w.literal w.ops).ranks[r]? = some (k.literal (w.ops r)) := by
    rw [literal_rank, hk, Option.map_some]
  obtain ⟨hanswers, hslots⟩ := hrounds.concludes hk'
  exact ⟨hanswers, hslots⟩

def Answer.int64s? : Answer → Option (List (ElementType.int64).Carrier)
  | .value .int64 (.ok v) => some [v]
  | .buffer .int64 (.ok ()) data => some data
  | _ => none

/-- Two gathers with a barrier between them. The first rank contributes to the second one what
it was answered to the first, and the ranks disagree on its type. -/
def twoRounds : Nat → Program
  | 0 => [fun _ => some (.reduce .int64 (1 : Int)), fun _ => some .barrier,
      fun answers => answers[0]?.bind fun a => a.int64s?.bind fun sums =>
        sums.head?.map (.reduce .int64)]
  | _ => [fun _ => some (.reduce .int64 (2 : Int)), fun _ => some .barrier,
      fun _ => some (.reduce .int32 (4 : Int))]

theorem World.twoRounds_second_gather :
    ∃ w k, (World.launch 2 twoRounds).follow
        [1, 0, 0, 1, 0, 0, 1, 0, 1, 1, 0, 0, 1, 0, 0, 1, 1, 0, 1, 0, 0, 1, 0] = some w ∧
      Aligned (max 2 1) w.ops ∧ w.ranks[0]? = some k ∧
      ∃ cs a, IsRound (max 2 1) w.ops 1 cs ∧ k.answers[2]? = some a ∧
        Concludes 0 cs (.reduce .int64 (3 : Int)) a := by
  have hmeetings : ∀ p < max 2 1, (((World.launch 2 twoRounds).follow
      [1, 0, 0, 1, 0, 0, 1, 0, 1, 1, 0, 0, 1, 0, 0, 1, 1, 0, 1, 0, 0, 1, 0]).map
        fun w => meetings (w.ops p)) = some [.gather, .barrier, .gather] := by decide +kernel
  have hfirst : (((World.launch 2 twoRounds).follow
      [1, 0, 0, 1, 0, 0, 1, 0, 1, 1, 0, 0, 1, 0, 0, 1, 1, 0, 1, 0, 0, 1, 0]).map
        fun w => (w.ranks[0]?.map fun k => k.answers.length, w.ops 0)) =
      some (some 3, [.reduce .int64 (1 : Int), .barrier, .reduce .int64 (3 : Int)]) := rfl
  obtain ⟨w, hrun, heq⟩ := Option.map_eq_some_iff.mp hfirst
  obtain ⟨hlen, hops⟩ := Prod.mk.inj heq
  obtain ⟨k, hk, hlen⟩ := Option.map_eq_some_iff.mp hlen
  have haligned : Aligned (max 2 1) w.ops := Aligned.of_meetings fun p hp => by
    have hp := hmeetings p hp
    rwa [hrun, Option.map_some, Option.some.injEq] at hp
  have hcur : (w.ops 0)[2]? = some (.reduce .int64 (3 : Int)) := by
    rw [hops]
    rfl
  obtain ⟨cs, a, hround, hanswer, hconcludes⟩ :=
    (completed_gather haligned hrun hk).1 hcur rfl (by omega)
  rw [hops] at hround
  exact ⟨w, k, hrun, haligned, hk, cs, a, hround, hanswer, hconcludes⟩

/-- The answers of ranks do not depend on the interleaving, whatever their programs make of
earlier answers. It is enough that in one complete run the operations agree on the kind of every
meeting, and that none of them reads the clock. Then the answers of any other run are a
beginning of the answers of this one, and those of any other complete run are the same. -/
theorem World.answers_eq_of_complete {size : Nat} {programs : Nat → Program} {rs rs' : List Nat}
    {w w' : World} (haligned : Aligned (max size 1) w.ops)
    (htime : ∀ r < max size 1, Op.time ∉ w.ops r)
    (hrun : (World.launch size programs).follow rs = some w) (hcomplete : w.Complete)
    (hrun' : (World.launch size programs).follow rs' = some w') :
    (∀ {r : Nat} {k k' : Rank}, w.ranks[r]? = some k → w'.ranks[r]? = some k' →
      k'.answers <+: k.answers) ∧
    (w'.Complete → w'.answers = w.answers) := by
  obtain ⟨⟨qs, hqs⟩, hgrows⟩ := grows_of_complete haligned htime hrun hcomplete hrun'
  refine ⟨fun hk hk' => (hgrows.2 hk' hk).2, fun hcomplete' => ?_⟩
  have hends := (hgrows.performs (stepwise_of_follow hrun)).complete_literal hcomplete'
  apply List.ext_getElem?
  intro r
  rw [answers, answers, List.getElem?_map, List.getElem?_map]
  cases hk' : w'.ranks[r]? with
  | none =>
      have hsize := hgrows.1
      rw [World.size, World.size] at hsize
      rw [List.getElem?_eq_none_iff] at hk'
      rw [List.getElem?_eq_none (by omega)]
  | some k' =>
      obtain ⟨k, hk⟩ := exists_rank_of_size hgrows.1 hk'
      have hprefix := (hgrows.2 hk' hk).2
      -- the other run is complete too, and so no less far
      have hbehind := behind_of_complete hqs hends (follow_fixed hrun)
        (show (w.literal w.ops).ranks[r]? = some (k.literal (w.ops r)) by
          rw [literal_rank, hk, Option.map_some])
        (show (w'.literal w.ops).ranks[r]? = some (k'.literal (w.ops r)) by
          rw [literal_rank, hk', Option.map_some])
      simp only [Rank.Behind, Rank.literal] at hbehind
      have hle := hprefix.length_le
      rw [hk, Option.map_some, Option.map_some, hprefix.eq_of_length (by omega)]

/-- A sum is passed on, a buffer is summed up twice, and in the end both ranks catch no fault
and do not get to their last operation. -/
def sumPassedOn (r : Nat) : Program :=
  Program.unwinding <| match r with
    | 0 => [fun _ => some (.reduce .int64 (1 : Int)),
        fun answers => answers[0]?.bind fun a => a.int64s?.map fun sum =>
          .send .int64 sum 1 3 true,
        fun _ => some (.arrayReduce .int64 [(1 : Int), (2 : Int)]),
        fun answers => answers[2]?.bind fun a => a.int64s?.map (.arrayReduce .int64),
        fun _ => some (.reduce .int8 (100 : Int)), fun _ => some .rank]
    | _ => [fun _ => some (.receive 0 3 true), fun _ => some (.reduce .int64 (2 : Int)),
        fun _ => some (.arrayReduce .int64 [(10 : Int), (20 : Int)]),
        fun answers => answers[2]?.bind fun a => a.int64s?.map (.arrayReduce .int64),
        fun _ => some (.wait 0 .int64 [(0 : Int), (9 : Int)] true),
        fun _ => some (.reduce .int8 (100 : Int)), fun _ => some .size]

theorem World.sumPassedOn_answers :
    ∃ w w', (World.launch 2 sumPassedOn).follow
        [0, 0, 1, 1, 1, 0, 0, 0, 1, 1, 0, 0, 0, 0, 1, 1, 0, 0, 0, 1, 1, 0, 0, 0, 1, 1, 0, 0, 0, 1,
          1, 0, 0, 0, 1, 1, 1, 0, 0, 0, 1, 1, 0] = some w ∧ w.Complete ∧
      Aligned (max 2 1) w.ops ∧ (∀ r < max 2 1, Op.time ∉ w.ops r) ∧
      (World.launch 2 sumPassedOn).follow
        [1, 1, 1, 0, 0, 1, 1, 1, 0, 0, 1, 1, 1, 0, 0, 0, 1, 1, 1, 0, 0, 1, 1, 1, 0, 0, 1, 1, 1, 0,
          0, 1, 1, 1, 1, 0, 0, 1, 1, 1, 0, 0, 1] = some w' ∧ w'.Complete ∧
      w'.answers = w.answers := by
  have hdone : ∀ rs, ((World.launch 2 sumPassedOn).follow rs).map
      (fun w => w.ranks.map fun k => k.op?.isSome) = some [false, false] →
      ∃ w, (World.launch 2 sumPassedOn).follow rs = some w ∧ w.Complete := by
    intro rs hrs
    obtain ⟨w, hrun, hnone⟩ := Option.map_eq_some_iff.mp hrs
    refine ⟨w, hrun, complete_of_op? fun k hk => ?_⟩
    have hmem : k.op?.isSome ∈ [false, false] := hnone ▸ List.mem_map_of_mem hk
    simpa using hmem
  obtain ⟨w, hrun, hcomplete⟩ := hdone
    [0, 0, 1, 1, 1, 0, 0, 0, 1, 1, 0, 0, 0, 0, 1, 1, 0, 0, 0, 1, 1, 0, 0, 0, 1, 1, 0, 0, 0, 1,
      1, 0, 0, 0, 1, 1, 1, 0, 0, 0, 1, 1, 0] (by decide +kernel)
  obtain ⟨w', hrun', hcomplete'⟩ := hdone
    [1, 1, 1, 0, 0, 1, 1, 1, 0, 0, 1, 1, 1, 0, 0, 0, 1, 1, 1, 0, 0, 1, 1, 1, 0, 0, 1, 1, 1, 0,
      0, 1, 1, 1, 1, 0, 0, 1, 1, 1, 0, 0, 1] (by decide +kernel)
  have hops : ((World.launch 2 sumPassedOn).follow
      [0, 0, 1, 1, 1, 0, 0, 0, 1, 1, 0, 0, 0, 0, 1, 1, 0, 0, 0, 1, 1, 0, 0, 0, 1, 1, 0, 0, 0, 1,
        1, 0, 0, 0, 1, 1, 1, 0, 0, 0, 1, 1, 0]).map (fun w => (w.ops 0, w.ops 1)) =
      some ([.reduce .int64 (1 : Int), .send .int64 [(3 : Int)] 1 3 true,
          .arrayReduce .int64 [(1 : Int), (2 : Int)], .arrayReduce .int64 [(11 : Int), (22 : Int)],
          .reduce .int8 (100 : Int)],
        [.receive 0 3 true, .reduce .int64 (2 : Int), .arrayReduce .int64 [(10 : Int), (20 : Int)],
          .arrayReduce .int64 [(11 : Int), (22 : Int)],
          .wait 0 .int64 [(0 : Int), (9 : Int)] true, .reduce .int8 (100 : Int)]) := rfl
  rw [hrun, Option.map_some, Option.some.injEq, Prod.mk.injEq] at hops
  have hranks : ∀ r < max 2 1, r = 0 ∨ r = 1 := by omega
  have haligned : Aligned (max 2 1) w.ops := by
    have hmeetings : ∀ r < max 2 1, meetings (w.ops r) = [.gather, .gather, .gather, .gather] := by
      intro r hr
      rcases hranks r hr with rfl | rfl
      · rw [hops.1]
        rfl
      · rw [hops.2]
        rfl
    exact Aligned.of_meetings hmeetings
  have htime : ∀ r < max 2 1, Op.time ∉ w.ops r := by
    intro r hr
    rcases hranks r hr with rfl | rfl
    · simp [hops.1]
    · simp [hops.2]
  exact ⟨w, w', hrun, hcomplete, haligned, htime, hrun', hcomplete',
    (answers_eq_of_complete haligned htime hrun hcomplete hrun').2 hcomplete'⟩

end SpmdArrays.Spmd
