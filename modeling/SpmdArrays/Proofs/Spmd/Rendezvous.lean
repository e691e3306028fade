import SpmdArrays.Proofs.Spmd.Steps

/-!
The barrier and the slots, in every interleaving.

A rank arrives at the barrier once for a plain barrier and twice for a gather,
so its place on its program says how often it has arrived (`Rank.arrivals`). All
ranks have arrived as often as the barrier has opened, but for those that wait
for it to open next; these have arrived once more (`World.InStep`).

When the ranks' programs agree on the kind of every meeting, a rank between the
two rendezvous of a gather has all others in the same gather, with their slots
written (`World.InStep.all_in_gather`).
-/

namespace SpmdArrays.Spmd

/-! ### Arrivals -/

def Meeting.arrivals : Meeting → Nat
  | .barrier => 1
  | .gather => 2

def arrivals : List Meeting → Nat
  | [] => 0
  | m :: ms => m.arrivals + arrivals ms

@[simp] theorem arrivals_append (ms ns : List Meeting) :
    arrivals (ms ++ ns) = arrivals ms + arrivals ns := by
  induction ms with
  | nil => simp [arrivals]
  | cons m ms ih =>
      rw [List.cons_append, arrivals, arrivals, ih]
      omega

def Phase.arrivals : Phase → Nat
  | .start | .written => 0
  | .gathering _ | .ready | .read _ | .waiting _ => 1
  | .leaving .. => 2

def Phase.blocked? : Phase → Option Nat
  | .gathering g | .leaving g _ | .waiting g => some g
  | _ => none

theorem Phase.arrivals_le (p : Phase) : p.arrivals ≤ Spmd.arrivals p.meeting?.toList := by
  cases p <;> simp [Phase.arrivals, Phase.meeting?, Spmd.arrivals, Meeting.arrivals]

namespace Rank

/-- Arrivals made so far by a rank on its program. -/
def arrivals (program : List Op) (k : Rank) : Nat :=
  Spmd.arrivals (meetings (program.take k.answers.length)) + k.phase.arrivals

variable {size : Nat} {program : List Op} {k : Rank} {op : Op}

theorem OnProgram.arrivals_finish (h : k.OnProgram size program) (hcur : k.op? = some op)
    (a : Answer) :
    (k.finish a).arrivals program =
      Spmd.arrivals (meetings (program.take k.answers.length)) +
        Spmd.arrivals op.meeting?.toList := by
  rw [arrivals, length_answers_finish, h.take_succ hcur, meetings, filterMap_concat,
    arrivals_append]
  rfl

theorem arrivals_of_phase {p : Phase} (h : k.phase = p) :
    k.arrivals program =
      Spmd.arrivals (meetings (program.take k.answers.length)) + p.arrivals := by
  rw [arrivals, h]

theorem arrivals_enter (p : Phase) :
    (k.enter p).arrivals program =
      Spmd.arrivals (meetings (program.take k.answers.length)) + p.arrivals := rfl

/-- A rank that does not wait has arrived once for each time the barrier opened.
One that waits has arrived once more than it opened before, and it has opened at
most once since. -/
def KeepsStep (generation : Nat) (program : List Op) (k : Rank) : Prop :=
  match k.phase.blocked? with
  | none => k.arrivals program = generation
  | some g => k.arrivals program = g + 1 ∧ (g = generation ∨ g + 1 = generation)

theorem keepsStep_of_free {g : Nat} (h : k.phase.blocked? = none) :
    k.KeepsStep g program ↔ k.arrivals program = g := by
  rw [KeepsStep, h]

theorem keepsStep_of_blocked {g g' : Nat} (h : k.phase.blocked? = some g') :
    k.KeepsStep g program ↔
      k.arrivals program = g' + 1 ∧ (g' = g ∨ g' + 1 = g) := by
  rw [KeepsStep, h]

theorem KeepsStep.arrivals_eq {g : Nat} (h : k.KeepsStep g program)
    (hwaits : k.phase.blocked? ≠ some g) : k.arrivals program = g := by
  cases hblocked : k.phase.blocked? with
  | none => exact (keepsStep_of_free hblocked).mp h
  | some g' =>
      have hkeeps := (keepsStep_of_blocked hblocked).mp h
      have hne : g' ≠ g := fun hg => hwaits (hg ▸ hblocked)
      omega

def waitsFor (g : Nat) (k : Rank) : Bool := k.phase.blocked? = some g

end Rank

/-! ### The barrier -/

namespace World

/-- The barrier counts the ranks that wait for it, and no rank is out of step. -/
structure InStep (programs : Nat → List Op) (w : World) : Prop where
  rank : ∀ {r : Nat} {k : Rank}, w.ranks[r]? = some k → k.KeepsStep w.generation (programs r)
  arrived : w.arrived = w.ranks.countP (Rank.waitsFor w.generation)
  arrived_lt : w.arrived < w.size

variable {size : Nat} {programs : Nat → List Op} {w v : World} {r : Nat} {k : Rank} {op : Op}

theorem forall_ranks_set {motive : Nat → Rank → Prop} {ks : List Rank} {k' : Rank}
    (hk' : motive r k') (h : ∀ {p : Nat} {kp : Rank}, p ≠ r → ks[p]? = some kp → motive p kp)
    {p : Nat} {kp : Rank} (hp : (ks.set r k')[p]? = some kp) : motive p kp := by
  rw [List.getElem?_set] at hp
  split at hp
  · rename_i hrp
    subst hrp
    split at hp
    · cases hp
      exact hk'
    · cases hp
  · rename_i hrp
    exact h (Ne.symm hrp) hp

theorem InStep.setRank (h : w.InStep programs) (hk : w.ranks[r]? = some k)
    (hwaits : k.phase.blocked? ≠ some w.generation) {j : Rank}
    (hfree : j.phase.blocked? = none)
    (harr : j.arrivals (programs r) = k.arrivals (programs r))
    (hranks : v.ranks = w.ranks.set r j) (hgen : v.generation = w.generation)
    (harrived : v.arrived = w.arrived) : v.InStep programs where
  rank := by
    intro p kp hp
    rw [hranks] at hp
    rw [hgen]
    exact forall_ranks_set (motive := fun p kp => kp.KeepsStep w.generation (programs p))
      ((Rank.keepsStep_of_free hfree).mpr (harr.trans ((h.rank hk).arrivals_eq hwaits)))
      (fun _ hp => h.rank hp) hp
  arrived := by
    obtain ⟨hlt, hget⟩ := List.getElem?_eq_some_iff.mp hk
    rw [harrived, hgen, hranks, List.countP_set hlt, hget, h.arrived]
    simp [Rank.waitsFor, hwaits, hfree]
  arrived_lt := by
    rw [harrived, World.size, hranks, List.length_set]
    exact h.arrived_lt

/-- When all ranks but one wait for the barrier to open, each of the others does. -/
theorem InStep.blocked_of_last (h : w.InStep programs) (hk : w.ranks[r]? = some k)
    (hfree : k.phase.blocked? = none) (hlast : ¬ w.arrived + 1 < w.size) {p : Nat} {kp : Rank}
    (hpr : p ≠ r) (hp : w.ranks[p]? = some kp) : kp.phase.blocked? = some w.generation := by
  obtain ⟨hlt, hget⟩ := List.getElem?_eq_some_iff.mp hk
  have hcount : (w.ranks.set r (k.enter (.waiting w.generation))).countP
      (Rank.waitsFor w.generation) = w.arrived + 1 := by
    have hbefore : k.waitsFor w.generation = false := by simp [Rank.waitsFor, hfree]
    have hafter : (k.enter (.waiting w.generation)).waitsFor w.generation = true :=
      decide_eq_true rfl
    rw [List.countP_set hlt, hget, ← h.arrived, hbefore, hafter]
    simp
  have hlen : w.arrived + 1 = (w.ranks.set r (k.enter (.waiting w.generation))).length := by
    have := h.arrived_lt
    rw [List.length_set]
    simp only [World.size] at this hlast
    omega
  have hall := List.countP_eq_length.mp (hcount.trans hlen)
  have hmem : kp ∈ w.ranks.set r (k.enter (.waiting w.generation)) := by
    refine List.mem_of_getElem? (i := p) ?_
    rw [List.getElem?_set_ne (Ne.symm hpr), hp]
  simpa [Rank.waitsFor] using hall kp hmem

theorem InStep.arrive (h : w.InStep programs) (hk : w.ranks[r]? = some k)
    (hfree : k.phase.blocked? = none) {through : Rank} {wait : Nat → Rank}
    (hthrough : through.phase.blocked? = none)
    (hthroughArr : through.arrivals (programs r) = k.arrivals (programs r) + 1)
    (hwait : ∀ g, (wait g).phase.blocked? = some g)
    (hwaitArr : ∀ g, (wait g).arrivals (programs r) = k.arrivals (programs r) + 1) :
    (w.arrive r through wait).InStep programs := by
  obtain ⟨hlt, hget⟩ := List.getElem?_eq_some_iff.mp hk
  have harr := (Rank.keepsStep_of_free hfree).mp (h.rank hk)
  rw [harr] at hthroughArr hwaitArr
  unfold World.arrive
  split
  · rename_i hroom
    refine ⟨?_, ?_, ?_⟩
    · intro p kp hp
      exact forall_ranks_set (motive := fun p kp => kp.KeepsStep w.generation (programs p))
        ((Rank.keepsStep_of_blocked (hwait _)).mpr ⟨hwaitArr _, .inl rfl⟩)
        (fun _ hp => h.rank hp) hp
    · show w.arrived + 1 = (w.ranks.set r (wait w.generation)).countP (Rank.waitsFor w.generation)
      rw [List.countP_set hlt, hget, ← h.arrived]
      simp [Rank.waitsFor, hfree, hwait]
    · simpa [World.size] using hroom
  · rename_i hlast
    have hothers : ∀ {p : Nat} {kp : Rank}, p ≠ r → w.ranks[p]? = some kp →
        kp.phase.blocked? = some w.generation := h.blocked_of_last hk hfree hlast
    refine ⟨?_, ?_, ?_⟩
    · intro p kp hp
      refine forall_ranks_set
        (motive := fun p kp => kp.KeepsStep (w.generation + 1) (programs p))
        ((Rank.keepsStep_of_free hthrough).mpr hthroughArr) (fun hpr hp => ?_) hp
      have hblocked := hothers hpr hp
      have hkeeps := (Rank.keepsStep_of_blocked hblocked).mp (h.rank hp)
      exact (Rank.keepsStep_of_blocked hblocked).mpr ⟨hkeeps.1, .inr rfl⟩
    · show 0 = (w.ranks.set r through).countP (Rank.waitsFor (w.generation + 1))
      refine (List.countP_eq_zero.mpr ?_).symm
      intro kp hmem
      obtain ⟨p, hp⟩ := List.mem_iff_getElem?.mp hmem
      refine forall_ranks_set (motive := fun _ kp => ¬ Rank.waitsFor (w.generation + 1) kp = true)
        (by simp [Rank.waitsFor, hthrough]) (fun hpr hp => ?_) hp
      simp [Rank.waitsFor, hothers hpr hp]
    · have := h.arrived_lt
      simp only [World.size, setRank_ranks, List.length_set] at this ⊢
      omega

theorem InStep.moves (h : w.InStep programs) (hk : w.ranks[r]? = some k)
    (hprog : k.OnProgram w.size (programs r)) (hcur : k.op? = some op)
    (hmoves : w.Moves r k op v) : v.InStep programs := by
  have hstarts := op.plan_starts r w.size k.tickets
  have hmeet : ∀ {m}, k.phase.meeting? = some m → op.meeting? = some m :=
    hprog.meeting?_eq hcur
  cases hmoves with
  | done a hphase hplan =>
      rw [hplan] at hstarts
      refine h.setRank hk (by simp [hphase, Phase.blocked?]) rfl ?_ rfl rfl rfl
      rw [hprog.arrivals_finish hcur, hstarts.1, Rank.arrivals_of_phase hphase]
      rfl
  | clock hphase hplan =>
      rw [hplan] at hstarts
      cases hstarts
      refine h.setRank hk (by simp [hphase, Phase.blocked?]) rfl ?_ rfl rfl rfl
      rw [hprog.arrivals_finish hcur, Rank.arrivals_of_phase hphase]
      rfl
  | barrier hphase hplan =>
      rw [hplan] at hstarts
      cases hstarts
      refine h.arrive hk (by rw [hphase]; rfl) rfl ?_ (fun _ => rfl) fun g => ?_
      · rw [hprog.arrivals_finish hcur, Rank.arrivals_of_phase hphase]
        rfl
      · rw [Rank.arrivals_enter, Rank.arrivals_of_phase hphase]
        rfl
  | write c hphase hplan =>
      refine h.setRank (j := k.enter .written) hk (by simp [hphase, Phase.blocked?]) rfl ?_
        rfl rfl rfl
      rw [Rank.arrivals_enter, Rank.arrivals_of_phase hphase]
      rfl
  | send peer tag m hphase hplan =>
      rw [hplan] at hstarts
      obtain ⟨rfl, -⟩ := hstarts
      refine h.setRank hk (by simp [hphase, Phase.blocked?]) rfl ?_ rfl rfl rfl
      rw [hprog.arrivals_finish hcur, Rank.arrivals_of_phase hphase]
      rfl
  | receive source tag m rest hphase hplan hmail =>
      rw [hplan] at hstarts
      obtain ⟨n, t, buffer, rfl, -⟩ := hstarts
      refine h.setRank hk (by simp [hphase, Phase.blocked?]) rfl ?_ rfl rfl rfl
      rw [hprog.arrivals_finish hcur, Rank.arrivals_of_phase hphase]
      rfl
  | meet hphase =>
      refine h.arrive hk (by rw [hphase]; rfl) rfl ?_ (fun _ => rfl) fun g => ?_
      all_goals
        rw [Rank.arrivals_enter, Rank.arrivals_of_phase hphase]
        rfl
  | pass g hphase hopen =>
      refine h.setRank (j := k.enter .ready) hk ?_ rfl ?_ rfl rfl rfl
      · simpa [hphase, Phase.blocked?] using Ne.symm hopen
      · rw [Rank.arrivals_enter, Rank.arrivals_of_phase hphase]
        rfl
  | look hphase =>
      refine h.setRank (j := k.enter (.read w.slots)) hk (by simp [hphase, Phase.blocked?]) rfl ?_
        rfl rfl rfl
      rw [Rank.arrivals_enter, Rank.arrivals_of_phase hphase]
      rfl
  | part slots hphase =>
      have hop := hmeet (m := .gather) (by rw [hphase]; rfl)
      refine h.arrive hk (by rw [hphase]; rfl) rfl ?_ (fun _ => rfl) fun g => ?_
      · rw [hprog.arrivals_finish hcur, hop, Rank.arrivals_of_phase hphase]
        rfl
      · rw [Rank.arrivals_enter, Rank.arrivals_of_phase hphase]
        rfl
  | leave g slots hphase hopen =>
      have hop := hmeet (m := .gather) (by rw [hphase]; rfl)
      refine h.setRank hk ?_ rfl ?_ rfl rfl rfl
      · simpa [hphase, Phase.blocked?] using Ne.symm hopen
      · rw [hprog.arrivals_finish hcur, hop, Rank.arrivals_of_phase hphase]
        rfl
  | resume g hphase hopen =>
      have hop := hmeet (m := .barrier) (by rw [hphase]; rfl)
      refine h.setRank hk ?_ rfl ?_ rfl rfl rfl
      · simpa [hphase, Phase.blocked?] using Ne.symm hopen
      · rw [hprog.arrivals_finish hcur, hop, Rank.arrivals_of_phase hphase]
        rfl

theorem start_inStep (size : Nat) (programs : List (List Op)) :
    (start size programs).InStep fun r => programs.getD r [] where
  rank := by
    intro r k hk
    simp only [start, launch, List.getElem?_map, Option.map_eq_some_iff] at hk
    obtain ⟨p, -, rfl⟩ := hk
    rfl
  arrived := by
    refine (List.countP_eq_zero.mpr ?_).symm
    intro k hk
    simp only [start, launch, List.mem_map] at hk
    obtain ⟨p, -, rfl⟩ := hk
    simp [Rank.waitsFor, Phase.blocked?]
  arrived_lt := by
    simp only [World.size, start, launch, List.length_map, List.length_range]
    omega

theorem InStep.step (h : w.InStep programs) (hprogs : w.OnPrograms size programs)
    (hstep : w.step? r = some v) : v.InStep programs := by
  obtain ⟨k, op, hk, hcur, hmoves⟩ := moves_of_step? hstep
  have hprog := hprogs.rank hk
  rw [← hprogs.size_eq] at hprog
  exact h.moves hk hprog hcur hmoves

theorem inStep_of_follow {size : Nat} {programs : List (List Op)} {rs : List Nat}
    (hrun : (start size programs).follow rs = some w) :
    w.InStep fun r => programs.getD r [] :=
  reached_induction (start_inStep size programs)
    (fun hrun h hstep => h.step (onPrograms_of_follow hrun) hstep) hrun

end World

/-! ### Programs whose meetings agree -/

/-- The programs of the first `size` ranks agree on the kind of every meeting: the
one with a given number is a barrier for all ranks that get to it, or a gather
for all of them. -/
def Aligned (size : Nat) (programs : Nat → List Op) : Prop :=
  ∀ p q, p < size → q < size → ∀ (i : Nat) (a b : Meeting),
    (meetings (programs p))[i]? = some a → (meetings (programs q))[i]? = some b → a = b

theorem Aligned.of_meetings {size : Nat} {programs : Nat → List Op} {ms : List Meeting}
    (h : ∀ p < size, meetings (programs p) = ms) : Aligned size programs := by
  intro p q hp hq i a b ha hb
  rw [h p hp] at ha
  rw [h q hq] at hb
  exact Option.some.inj (ha.symm.trans hb)

theorem Aligned.take_eq {size : Nat} {programs : Nat → List Op} (h : Aligned size programs)
    {p q : Nat} (hp : p < size) (hq : q < size) {i : Nat}
    (hip : i ≤ (meetings (programs p)).length) (hiq : i ≤ (meetings (programs q)).length) :
    (meetings (programs p)).take i = (meetings (programs q)).take i := by
  apply List.ext_getElem
  · simp only [List.length_take]
    omega
  · intro j hjp hjq
    simp only [List.length_take] at hjp hjq
    rw [List.getElem_take, List.getElem_take]
    exact h p q hp hq j _ _ (List.getElem?_eq_getElem (by omega))
      (List.getElem?_eq_getElem (by omega))

theorem arrivals_le_arrivals {ms ns : List Meeting} (h : ms <+: ns) :
    arrivals ms ≤ arrivals ns := by
  obtain ⟨t, rfl⟩ := h
  rw [arrivals_append]
  omega

theorem Aligned.arrivals_take_le {size : Nat} {programs : Nat → List Op}
    (h : Aligned size programs) {p q : Nat} (hp : p < size) (hq : q < size) {i j : Nat}
    (hij : i ≤ j) (hj : j ≤ (meetings (programs q)).length) :
    arrivals ((meetings (programs p)).take i) ≤ arrivals ((meetings (programs q)).take j) := by
  have hmin : (meetings (programs p)).take i =
      (meetings (programs p)).take (min i (meetings (programs p)).length) := by
    rw [List.take_eq_take_iff]
    omega
  rw [hmin, h.take_eq hp hq (by omega) (by omega)]
  exact arrivals_le_arrivals (List.take_prefix_take_left (by omega))

theorem length_contributions (ops : List Op) :
    (contributions ops).length = (meetings ops).count .gather := by
  induction ops with
  | nil => rfl
  | cons op ops ih =>
      simp only [contributions, meetings] at ih ⊢
      rw [List.filterMap_cons, List.filterMap_cons]
      cases hmeet : op.meeting? with
      | none =>
          rw [Op.contribution?_eq_none (by simp [hmeet])]
          exact ih
      | some m =>
          cases m with
          | barrier =>
              rw [Op.contribution?_eq_none (by simp [hmeet])]
              simpa using ih
          | gather =>
              obtain ⟨c, hc⟩ := Op.contribution?_of_meeting? hmeet
              simpa [hc] using ih

namespace Rank

variable {size : Nat} {program : List Op} {k : Rank} {op : Op}

def met (program : List Op) (k : Rank) : List Meeting :=
  meetings (program.take k.answers.length)

def gathers (program : List Op) (k : Rank) : Nat :=
  (contributions (program.take k.answers.length)).length

theorem met_prefix_meetings (program : List Op) (k : Rank) :
    k.met program <+: meetings program := by
  have hfront := List.take_prefix k.answers.length program
  exact hfront.filterMap _

theorem take_met (program : List Op) (k : Rank) :
    (meetings program).take (k.met program).length = k.met program :=
  (List.prefix_iff_eq_take.mp (k.met_prefix_meetings program)).symm

theorem OnProgram.meetings_getElem? (h : k.OnProgram size program) (hcur : k.op? = some op)
    {m : Meeting} (hm : op.meeting? = some m) :
    (meetings program)[(k.met program).length]? = some m :=
  filterMap_getElem?_of_getElem? (h.getElem?_program hcur) hm

theorem OnProgram.contributions_getElem? (h : k.OnProgram size program)
    (hcur : k.op? = some op) {c : Contribution} (hc : op.contribution? = some c) :
    (contributions program)[k.gathers program]? = some c :=
  filterMap_getElem?_of_getElem? (h.getElem?_program hcur) hc

theorem KeepsStep.bounds {g : Nat} (h : k.KeepsStep g program) :
    g ≤ k.arrivals program ∧ k.arrivals program ≤ g + 1 ∧
      (k.arrivals program = g + 1 → 1 ≤ k.phase.arrivals) := by
  cases hblocked : k.phase.blocked? with
  | none =>
      have := (keepsStep_of_free hblocked).mp h
      omega
  | some g' =>
      have hkeeps := (keepsStep_of_blocked hblocked).mp h
      have harr : 1 ≤ k.phase.arrivals := by
        cases hphase : k.phase <;> rw [hphase] at hblocked <;>
          simp_all [Phase.blocked?, Phase.arrivals]
      omega

theorem OnProgram.arrivals_le (h : k.OnProgram size program) :
    k.arrivals program ≤ Spmd.arrivals ((meetings program).take ((k.met program).length + 1)) := by
  have hphase := k.phase.arrivals_le
  rw [List.take_add_one, k.take_met, arrivals_append, arrivals, ← met]
  cases hm : k.phase.meeting? with
  | none =>
      rw [hm] at hphase
      simp only [Option.toList_none, Spmd.arrivals] at hphase
      omega
  | some m =>
      obtain ⟨op, hcur, hop⟩ := h.phase hm
      rw [hm] at hphase
      rw [h.meetings_getElem? hcur hop]
      omega

end Rank

namespace World

variable {size : Nat} {programs : Nat → List Op} {w v : World} {r : Nat} {k : Rank} {op : Op}

/-- While a rank is between the two rendezvous of a gather, every rank is in the
same gather and has arrived at its first rendezvous. -/
theorem InStep.all_in_gather (h : w.InStep programs) (hprogs : w.OnPrograms size programs)
    (haligned : Aligned size programs) (hk : w.ranks[r]? = some k) (hphase : k.phase = .ready)
    {p : Nat} {kp : Rank} (hp : w.ranks[p]? = some kp) :
    kp.phase.meeting? = some .gather ∧ kp.met (programs p) = k.met (programs r) := by
  have hlt : ∀ {q : Nat} {kq : Rank}, w.ranks[q]? = some kq → q < size := hprogs.lt_size
  have hr := hprogs.rank hk
  have hq := hprogs.rank hp
  obtain ⟨op, hcur, hop⟩ := hr.phase (m := .gather) (by rw [hphase]; rfl)
  have hmeet := hr.meetings_getElem? hcur hop
  have hlen := (k.met_prefix_meetings (programs r)).length_le
  have hlen' := (kp.met_prefix_meetings (programs p)).length_le
  have hlt_len : (k.met (programs r)).length < (meetings (programs r)).length :=
    (List.getElem?_eq_some_iff.mp hmeet).1
  -- the rank itself has arrived once for its current gather
  have hgen : arrivals (k.met (programs r)) + 1 = w.generation :=
    (Rank.arrivals_of_phase hphase).symm.trans
      ((h.rank hk).arrivals_eq (by simp [hphase, Phase.blocked?]))
  obtain ⟨hge, hle, hwaits⟩ := (h.rank hp).bounds
  have harr : kp.arrivals (programs p) = arrivals (kp.met (programs p)) + kp.phase.arrivals := rfl
  rcases Nat.lt_trichotomy (kp.met (programs p)).length (k.met (programs r)).length with
    hbehind | hsame | hahead
  · -- a rank that is behind has not arrived often enough for the barrier to open
    have htake := haligned.arrivals_take_le (i := (kp.met (programs p)).length + 1) (hlt hp)
      (hlt hk) hbehind hlen
    have hcurrent := hq.arrivals_le
    rw [k.take_met] at htake
    omega
  · have hmet : kp.met (programs p) = k.met (programs r) := by
      rw [← kp.take_met, ← k.take_met, hsame]
      exact haligned.take_eq (hlt hp) (hlt hk) (hsame ▸ hlen') hlen
    refine ⟨?_, hmet⟩
    rw [hmet] at harr
    cases hm : kp.phase.meeting? with
    | none =>
        have := kp.phase.arrivals_le
        rw [hm] at this
        simp only [Option.toList_none, arrivals] at this
        omega
    | some m =>
        obtain ⟨op', hcur', hop'⟩ := hq.phase hm
        have hmeet' := hq.meetings_getElem? hcur' hop'
        rw [hsame] at hmeet'
        rw [haligned p r (hlt hp) (hlt hk) _ _ _ hmeet' hmeet]
  · -- a rank that is ahead has left this gather, and the barrier opened for it
    have htake := haligned.arrivals_take_le (i := (k.met (programs r)).length + 1) (hlt hk)
      (hlt hp) hahead hlen'
    rw [List.take_add_one, k.take_met, kp.take_met, hmeet, arrivals_append] at htake
    simp only [Option.toList_some, arrivals, Meeting.arrivals] at htake
    omega

end World

end SpmdArrays.Spmd
