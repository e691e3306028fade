import Mathlib.Algebra.BigOperators.Group.List.Basic
import Mathlib.Algebra.Ring.Int.Defs
import Mathlib.Data.List.Forall2
import SpmdArrays.Proofs.Spmd.Completion
import SpmdArrays.Proofs.Spmd.Portions

/-!
The cumulative sum over all ranks is the serial one. For nonnegative numbers whose
grand total fits the type, nothing on the way is greater than the total, so no sum
leaves its range. A rank begins at the sum of all inputs in front of its own, and so
the running sums of the ranks, one behind the other, are the running sums of all
inputs, one behind the other.
-/

namespace SpmdArrays

namespace ElementType

/-- The number that an element of an integer type is. Elements of the other types
count as zero. -/
def value : (t : ElementType) → t.Carrier → Int
  | .int8, v | .uint8, v | .int32, v | .uint32, v | .int64, v | .uint64, v => v
  | .float32, _ | .float64, _ => 0

variable {t : ElementType} {word : Word}

@[simp] theorem value_zero (t : ElementType) : t.value t.zero = 0 := by
  cases t <;> rfl

theorem add_of_fits (ht : t.word? = some word) {a b : t.Carrier}
    (h : word.Fits (t.value a + t.value b)) :
    ∃ c, t.add a b = .ok c ∧ t.value c = t.value a + t.value b := by
  cases t <;> cases ht <;> exact ⟨_, Word.add_of_fits h, rfl⟩

theorem lo_le_zero (ht : t.word? = some word) : word.lo ≤ 0 := by
  cases t <;> cases ht <;> decide

theorem fits_of_le (ht : t.word? = some word) {a b : Int} (hb : word.Fits b) (ha : 0 ≤ a)
    (hab : a ≤ b) : word.Fits a :=
  ⟨Int.le_trans (lo_le_zero ht) ha, Int.le_trans hab hb.2⟩

def total (t : ElementType) (vs : List t.Carrier) : Int := (vs.map t.value).sum

@[simp] theorem total_nil (t : ElementType) : t.total [] = 0 := rfl

@[simp] theorem total_cons (t : ElementType) (v : t.Carrier) (vs : List t.Carrier) :
    t.total (v :: vs) = t.value v + t.total vs := by
  simp [total]

@[simp] theorem total_append (t : ElementType) (vs us : List t.Carrier) :
    t.total (vs ++ us) = t.total vs + t.total us := by
  simp [total]

theorem total_nonneg {vs : List t.Carrier} (h : ∀ v ∈ vs, 0 ≤ t.value v) : 0 ≤ t.total vs := by
  induction vs with
  | nil => simp
  | cons v vs ih =>
      have hv := h v (by simp)
      have hvs := ih fun u hu => h u (by simp [hu])
      rw [total_cons]
      omega

theorem foldlM_add_of_fits (ht : t.word? = some word) {vs : List t.Carrier} {acc : t.Carrier}
    (hfits : ∀ n, word.Fits (t.value acc + t.total (vs.take n))) :
    ∃ c, vs.foldlM t.add acc = .ok c ∧ t.value c = t.value acc + t.total vs := by
  induction vs generalizing acc with
  | nil => exact ⟨acc, rfl, by simp⟩
  | cons v vs ih =>
      obtain ⟨s, hs, hval⟩ := add_of_fits ht (by simpa using hfits 1)
      have hrest : ∀ n, word.Fits (t.value s + t.total (vs.take n)) := by
        intro n
        have hnext := hfits (n + 1)
        rwa [List.take_succ_cons, total_cons, ← Int.add_assoc, ← hval] at hnext
      obtain ⟨c, hc, hcval⟩ := ih hrest
      refine ⟨c, ?_, by rw [total_cons]; omega⟩
      rw [List.foldlM_cons, hs, ok_bind, hc]

theorem sum_of_fits (ht : t.word? = some word) {vs : List t.Carrier}
    (hfits : ∀ n, word.Fits (t.total (vs.take n))) :
    ∃ c, t.sum vs = .ok c ∧ t.value c = t.total vs := by
  have hzero : ∀ n, word.Fits (t.value t.zero + t.total (vs.take n)) := by simpa using hfits
  simpa [sum] using foldlM_add_of_fits ht hzero

end ElementType

/-- The sums of all beginnings of a list, shortest first, the empty one left out. -/
def prefixSums (xs : List Int) : List Int :=
  (List.range xs.length).map fun i => (xs.take (i + 1)).sum

@[simp] theorem prefixSums_nil : prefixSums [] = [] := rfl

@[simp] theorem length_prefixSums (xs : List Int) : (prefixSums xs).length = xs.length := by
  simp [prefixSums]

theorem prefixSums_cons (x : Int) (xs : List Int) :
    prefixSums (x :: xs) = x :: (prefixSums xs).map (x + ·) := by
  simp [prefixSums, List.range_succ_eq_map, Function.comp_def]

theorem prefixSums_append (xs ys : List Int) :
    prefixSums (xs ++ ys) = prefixSums xs ++ (prefixSums ys).map (xs.sum + ·) := by
  induction xs with
  | nil => simp
  | cons x xs ih =>
      simp [prefixSums_cons, ih, Function.comp_def, Int.add_assoc]

namespace ElementType

variable {t : ElementType} {word : Word}

/-- Running sums from a start value: the front of the output takes them, and the
rest of it stays. -/
theorem runningSums_of_fits (ht : t.word? = some word) {input output : List t.Carrier}
    {start : t.Carrier} (hlen : input.length ≤ output.length)
    (hfits : ∀ n, word.Fits (t.value start + t.total (input.take n))) :
    ∃ front, t.runningSums start input output = (.ok (), front ++ output.drop input.length) ∧
      front.map t.value = (prefixSums (input.map t.value)).map (t.value start + ·) := by
  induction input generalizing output start with
  | nil => exact ⟨[], by simp [runningSums], rfl⟩
  | cons v vs ih =>
      cases output with
      | nil => simp at hlen
      | cons o os =>
          obtain ⟨s, hs, hval⟩ := add_of_fits ht (by simpa using hfits 1)
          have hrest : ∀ n, word.Fits (t.value s + t.total (vs.take n)) := by
            intro n
            have hnext := hfits (n + 1)
            rwa [List.take_succ_cons, total_cons, ← Int.add_assoc, ← hval] at hnext
          obtain ⟨front, hrun, hfront⟩ := ih (show vs.length ≤ os.length by simpa using hlen) hrest
          refine ⟨s :: front, ?_, ?_⟩
          · simp only [runningSums, hs, hrun, List.cons_append, List.length_cons,
              List.drop_succ_cons]
          · simp [hfront, prefixSums_cons, hval, Function.comp_def, Int.add_assoc]

end ElementType

namespace Spmd

variable {t : ElementType} {word : Word}

abbrev SumPart (t : ElementType) : Type := List t.Carrier × List t.Carrier

def allInputs (parts : List (SumPart t)) : List t.Carrier := parts.flatMap Prod.fst

@[simp] theorem allInputs_append (parts parts' : List (SumPart t)) :
    allInputs (parts ++ parts') = allInputs parts ++ allInputs parts' :=
  List.flatMap_append

@[simp] theorem allInputs_cons (p : SumPart t) (parts : List (SumPart t)) :
    allInputs (p :: parts) = p.1 ++ allInputs parts := List.flatMap_cons

/-- Parts that a rank can sum up: room for every output, no negative number, and a
grand total that fits. -/
structure Summable (word : Word) (parts : List (SumPart t)) : Prop where
  room : ∀ p ∈ parts, p.1.length ≤ p.2.length
  nonneg : ∀ v ∈ allInputs parts, 0 ≤ t.value v
  fits : word.Fits (t.total (allInputs parts))

/-- There is room for every output, and no sum on the way leaves the type: not the sum of
any beginning of an input, not the sum of all inputs in front of a rank, and not the latter
with a beginning of the rank's own input on top. -/
structure NoOverflow (word : Word) (parts : List (SumPart t)) : Prop where
  room : ∀ p ∈ parts, p.1.length ≤ p.2.length
  own : ∀ p ∈ parts, ∀ n, word.Fits (t.total (p.1.take n))
  front : ∀ r, word.Fits (t.total (allInputs (parts.take r)))
  running : ∀ (r : Nat) (p : SumPart t), parts[r]? = some p →
    ∀ n, word.Fits (t.total (allInputs (parts.take r)) + t.total (p.1.take n))

/-- Of nonnegative numbers no sum is greater than the grand total. -/
theorem Summable.noOverflow (ht : t.word? = some word) {parts : List (SumPart t)}
    (h : Summable word parts) : NoOverflow word parts := by
  have hsplit : ∀ as bs cs : List t.Carrier, allInputs parts = as ++ (bs ++ cs) →
      word.Fits (t.total bs) ∧ word.Fits (t.total as + t.total bs) := by
    intro as bs cs heq
    have hnonneg := h.nonneg
    have hfits := h.fits
    simp only [heq, List.mem_append, ElementType.total_append] at hnonneg hfits
    have has := ElementType.total_nonneg fun v hv => hnonneg v (.inl hv)
    have hbs := ElementType.total_nonneg fun v hv => hnonneg v (.inr (.inl hv))
    have hcs := ElementType.total_nonneg fun v hv => hnonneg v (.inr (.inr hv))
    exact ⟨ElementType.fits_of_le ht hfits hbs (by omega),
      ElementType.fits_of_le ht hfits (by omega) (by omega)⟩
  have hrank : ∀ (r : Nat) (p : SumPart t), parts[r]? = some p → ∀ n,
      allInputs parts = allInputs (parts.take r) ++
        (p.1.take n ++ (p.1.drop n ++ allInputs (parts.drop (r + 1)))) := by
    intro r p hp n
    obtain ⟨hlt, rfl⟩ := List.getElem?_eq_some_iff.mp hp
    rw [← List.append_assoc (List.take n _), List.take_append_drop, ← allInputs_cons,
      ← List.drop_eq_getElem_cons hlt, ← allInputs_append, List.take_append_drop]
  refine ⟨h.room, ?_, ?_, fun r p hp n => (hsplit _ _ _ (hrank r p hp n)).2⟩
  · intro p hp n
    obtain ⟨r, hr⟩ := List.mem_iff_getElem?.mp hp
    exact (hsplit _ _ _ (hrank r p hr n)).1
  · intro r
    refine (hsplit [] _ (allInputs (parts.drop r)) ?_).1
    rw [List.nil_append, ← allInputs_append, List.take_append_drop]

/-- The outputs afterwards: the fronts of them, one behind the other, are the running
sums of all inputs, and behind its front every output is as it was. -/
structure SummedUp (parts : List (SumPart t)) (outs : List (List t.Carrier)) : Prop where
  length : outs.length = parts.length
  fronts : ((parts.zip outs).flatMap fun q => (q.2.take q.1.1.length).map t.value) =
    prefixSums ((allInputs parts).map t.value)
  rests : ∀ q ∈ parts.zip outs, q.2.length = q.1.2.length ∧
    q.2.drop q.1.1.length = q.1.2.drop q.1.1.length

/-! ### One rank -/

theorem gatheredScalars_eq (rank : Nat) (t : ElementType) (vs : List t.Carrier) :
    gatheredScalars rank t (vs.map fun v => some (.scalar t v)) = .ok vs := by
  have hread : ∀ k, readSlots rank (Contribution.scalarTypeName t) (Contribution.scalar? t) k
      (vs.map fun v => some (.scalar t v)) = .ok vs := by
    induction vs with
    | nil => exact fun k => rfl
    | cons v vs ih =>
        intro k
        simp only [List.map_cons, readSlots, Option.bind_some, Contribution.scalar?, dif_pos, ih,
          ok_bind]
        rfl
  exact hread 0

/-- The total of a part, which its rank lays down. -/
def IsTotal (p : SumPart t) (v : t.Carrier) : Prop := t.sum p.1 = .ok v ∧ t.value v = t.total p.1

theorem NoOverflow.exists_totals (ht : t.word? = some word) {parts : List (SumPart t)}
    (h : NoOverflow word parts) : ∃ totals, List.Forall₂ IsTotal parts totals := by
  have hown := h.own
  clear h
  induction parts with
  | nil => exact ⟨[], .nil⟩
  | cons p parts ih =>
      obtain ⟨totals, htotals⟩ := ih fun q hq => hown q (by simp [hq])
      obtain ⟨v, hv⟩ := ElementType.sum_of_fits ht (hown p (by simp))
      exact ⟨v :: totals, .cons hv htotals⟩

theorem total_of_forall₂ {parts : List (SumPart t)} {totals : List t.Carrier}
    (h : List.Forall₂ IsTotal parts totals) : t.total totals = t.total (allInputs parts) := by
  induction h with
  | nil => rfl
  | cons hp _ ih => rw [ElementType.total_cons, hp.2, ih, allInputs_cons, ElementType.total_append]

/-- A rank starts from the sum of all inputs in front of its own. -/
theorem NoOverflow.exclusiveScanAnswer_eq (ht : t.word? = some word) {parts : List (SumPart t)}
    (h : NoOverflow word parts) {totals : List t.Carrier}
    (htotals : List.Forall₂ IsTotal parts totals) (r : Nat) :
    ∃ start, exclusiveScanAnswer r t (totals.map fun v => some (.scalar t v)) = .ok start ∧
      t.value start = t.total (allInputs (parts.take r)) := by
  have hfront : ∀ n, t.total (totals.take n) = t.total (allInputs (parts.take n)) := fun n =>
    total_of_forall₂ (List.forall₂_take n htotals)
  have hfits : ∀ n, word.Fits (t.total ((totals.take r).take n)) := by
    intro n
    rw [List.take_take, hfront]
    exact h.front _
  obtain ⟨start, hsum, hval⟩ := ElementType.sum_of_fits ht hfits
  refine ⟨start, ?_, hval.trans (hfront r)⟩
  rw [exclusiveScanAnswer, gatheredScalars_eq]
  simp only [mapError_ok, ok_bind, hsum]

/-- What a rank answers: the running sums of its input on top of all inputs in front of it,
and behind them what was in its output. -/
theorem NoOverflow.cumulativeSumAnswer_eq (ht : t.word? = some word) {parts : List (SumPart t)}
    (h : NoOverflow word parts) {totals : List t.Carrier}
    (htotals : List.Forall₂ IsTotal parts totals) {r : Nat} {p : SumPart t}
    (hp : parts[r]? = some p) :
    ∃ front, cumulativeSumAnswer r t p.1 p.2 (totals.map fun v => some (.scalar t v)) =
        (.ok (), front ++ p.2.drop p.1.length) ∧
      front.map t.value =
        (prefixSums (p.1.map t.value)).map (t.total (allInputs (parts.take r)) + ·) := by
  obtain ⟨start, hscan, hstart⟩ := h.exclusiveScanAnswer_eq ht htotals r
  obtain ⟨front, hrun, hfront⟩ := ElementType.runningSums_of_fits ht
    (h.room p (List.mem_of_getElem? hp)) fun n => by
      rw [hstart]
      exact h.running r p hp n
  refine ⟨front, ?_, by rw [hfront, hstart]⟩
  simp only [cumulativeSumAnswer, hscan, hrun, mapError_ok]

theorem NoOverflow.exists_outputs (ht : t.word? = some word) {before rest : List (SumPart t)}
    (h : NoOverflow word (before ++ rest)) {totals : List t.Carrier}
    (htotals : List.Forall₂ IsTotal (before ++ rest) totals) :
    ∃ outs : List (List t.Carrier), outs.length = rest.length ∧
      (∀ (i : Nat) (p : SumPart t), rest[i]? = some p → ∃ out, outs[i]? = some out ∧
        cumulativeSumAnswer (before.length + i) t p.1 p.2
          (totals.map fun v => some (.scalar t v)) = (.ok (), out)) ∧
      ((rest.zip outs).flatMap fun q => (q.2.take q.1.1.length).map t.value) =
        (prefixSums ((allInputs rest).map t.value)).map (t.total (allInputs before) + ·) ∧
      ∀ q ∈ rest.zip outs, q.2.length = q.1.2.length ∧
        q.2.drop q.1.1.length = q.1.2.drop q.1.1.length := by
  induction rest generalizing before with
  | nil => exact ⟨[], rfl, by simp, by simp [allInputs], by simp⟩
  | cons p rest ih =>
      have hroom := h.room p (by simp)
      -- this rank
      obtain ⟨front, hanswer, hfront⟩ := h.cumulativeSumAnswer_eq ht htotals
        (r := before.length) (p := p) (by simp)
      rw [List.take_left] at hfront
      have hlen : front.length = p.1.length := by
        simpa using congrArg List.length hfront
      -- the ranks behind it
      rw [List.append_cons] at h htotals
      obtain ⟨outs, hlength, hanswers, hfronts, hrests⟩ := ih h htotals
      refine ⟨(front ++ p.2.drop p.1.length) :: outs, by simp [hlength], ?_, ?_, ?_⟩
      · intro i q hq
        cases i with
        | zero =>
            cases hq
            exact ⟨_, rfl, hanswer⟩
        | succ i =>
            obtain ⟨out, hout, hanswer⟩ := hanswers i q hq
            refine ⟨out, hout, ?_⟩
            rw [← hanswer, List.length_append, List.length_singleton]
            congr 1
            omega
      · rw [List.zip_cons_cons, List.flatMap_cons, hfronts, allInputs_cons, List.map_append,
          prefixSums_append, List.map_append, List.take_left' hlen, hfront]
        congr 1
        simp only [allInputs_append, allInputs_cons, ElementType.total_append, List.map_map]
        apply List.map_congr_left
        intro x _
        simp [ElementType.total, allInputs, Int.add_assoc]
      · intro q hq
        rw [List.zip_cons_cons, List.mem_cons] at hq
        rcases hq with rfl | hq
        · simp only [List.drop_left' hlen, and_true, List.length_append, List.length_drop]
          omega
        · exact hrests q hq

/-! ### All ranks -/

abbrev Contribute (ops : List Op) (cs : List Contribution) : Prop :=
  List.Forall₂ (fun op c => op.contribution? = some c) ops cs

def singlePrograms (ops : List Op) : List (List Op) := ops.map fun op => [op]

theorem getD_singlePrograms {ops : List Op} {r : Nat} {op : Op} (h : ops[r]? = some op) :
    (singlePrograms ops).getD r [] = [op] := by
  rw [singlePrograms, List.getD_eq_getElem?_getD, List.getElem?_map, h]
  rfl

theorem round_singlePrograms {ops : List Op} {cs : List Contribution} (h : Contribute ops cs) :
    round ops.length (fun r => (singlePrograms ops).getD r []) 0 = cs.map some := by
  apply List.ext_getElem?
  intro r
  rw [round, List.getElem?_map, List.getElem?_map]
  by_cases hr : r < ops.length
  · have hr' : r < cs.length := by rwa [← h.length_eq]
    have hc := h.get hr hr'
    simp only [List.get_eq_getElem] at hc
    rw [List.getElem?_range hr, Option.map_some, getD_singlePrograms (List.getElem?_eq_getElem hr),
      List.getElem?_eq_getElem hr', Option.map_some]
    simp [contributions, hc]
  · rw [List.getElem?_eq_none (by simpa using hr),
      List.getElem?_eq_none (by rw [← h.length_eq]; omega)]
    rfl

/-- Where every rank has one operation and gathers at it, each of them answers from what
all of them contribute, in every complete interleaving. -/
theorem World.answers_of_gathers {ops : List Op} {cs : List Contribution} (hne : ops ≠ [])
    (h : Contribute ops cs) {rs : List Nat} {w : World}
    (hrun : (World.start ops.length (singlePrograms ops)).follow rs = some w)
    (hcomplete : w.Complete) :
    w.answers = ops.mapIdx fun r op => [op.gathered r (cs.map some)] := by
  have hsize : max ops.length 1 = ops.length := Nat.max_eq_left (List.length_pos_iff.mpr hne)
  have hone : ∀ r < max ops.length 1, ∃ op c, ops[r]? = some op ∧ op.contribution? = some c ∧
      (singlePrograms ops).getD r [] = [op] := by
    intro r hr
    rw [hsize] at hr
    have hc := h.get hr (by rwa [← h.length_eq])
    have hop := List.getElem?_eq_getElem hr
    exact ⟨_, _, hop, hc, getD_singlePrograms hop⟩
  have hmeetings : ∀ r < max ops.length 1,
      meetings ((singlePrograms ops).getD r []) = [.gather] := by
    intro r hr
    obtain ⟨op, c, -, hc, hprogram⟩ := hone r hr
    rw [hprogram]
    simp [meetings, Op.meeting?_of_contribution? hc]
  have haligned := Aligned.of_meetings hmeetings
  have hreceive : ∀ r < max ops.length 1, ∀ op ∈ (singlePrograms ops).getD r [],
      ∀ tickets source tag, op.plan r (max ops.length 1) tickets ≠ .receive source tag := by
    intro r hr op hop tickets source tag hplan
    obtain ⟨op', c, -, hc, hprogram⟩ := hone r hr
    rw [hprogram, List.mem_singleton] at hop
    rw [hop, Op.plan_of_contribution? hc] at hplan
    cases hplan
  have hprogs := World.onPrograms_of_follow hrun
  have hin := World.inStep_of_follow hrun
  have hrounds := World.inRounds_of_follow haligned hrun
  apply List.ext_getElem?
  intro r
  rw [World.answers, List.getElem?_map, List.getElem?_mapIdx]
  by_cases hr : r < max ops.length 1
  · obtain ⟨op, c, hop, hc, hprogram⟩ := hone r hr
    obtain ⟨k, hk⟩ := hprogs.exists_rank hr
    -- the rank is through with its one operation
    have hdone := World.op?_eq_none_of_complete hprogs hin hcomplete
      (fun p hp q hq => (hmeetings p hp).trans (hmeetings q hq).symm) hreceive hk
    have hprog := hprogs.rank hk
    have hle := hprog.done_le
    rw [hprog.op?_eq, List.getElem?_eq_none_iff] at hdone
    simp only [hprogram, List.length_singleton] at hdone hle
    obtain ⟨a, ha⟩ := List.length_eq_one_iff.mp (Nat.le_antisymm hle hdone)
    -- and has answered it from the round
    have hfirst := ((hrounds.rank hk).answered (i := 0) (a := a) (by rw [hprogram]; rfl) hc
      (by rw [ha]; rfl)).1
    rw [List.take_zero, hsize] at hfirst
    simp only [contributions, List.filterMap_nil, List.length_nil] at hfirst
    rw [round_singlePrograms h] at hfirst
    rw [hk, hop, Option.map_some, Option.map_some, ha, hfirst]
  · have hranks : w.ranks.length = max ops.length 1 := hprogs.size_eq
    rw [List.getElem?_eq_none (by omega), List.getElem?_eq_none (by omega)]
    rfl

/-- What a rank has answered in the end, whatever the order in which the ranks act. -/
def World.EndsWith (programs : List (List Op)) (r : Nat) (answers : List Answer) : Prop :=
  (World.start programs.length programs).run.answers[r]? = some answers ∧
    ∀ rs w, (World.start programs.length programs).follow rs = some w → w.Complete →
      w.answers[r]? = some answers

theorem World.endsWith_of_gathers {ops : List Op} {cs : List Contribution}
    (h : Contribute ops cs) {r : Nat} {op : Op} (hop : ops[r]? = some op) :
    World.EndsWith (singlePrograms ops) r [op.gathered r (cs.map some)] := by
  have hne : ops ≠ [] := by
    rintro rfl
    cases hop
  have hlength : (singlePrograms ops).length = ops.length := by simp [singlePrograms]
  rw [World.EndsWith, hlength]
  have hall : ∀ rs w, (World.start ops.length (singlePrograms ops)).follow rs = some w →
      w.Complete → w.answers[r]? = some [op.gathered r (cs.map some)] := by
    intro rs w hrun hcomplete
    rw [World.answers_of_gathers hne h hrun hcomplete, List.getElem?_mapIdx, hop, Option.map_some]
  obtain ⟨rs, hrun, hcomplete⟩ :=
    World.exists_follow_run (World.start ops.length (singlePrograms ops))
  exact ⟨hall rs _ hrun hcomplete, hall⟩

def sumPrograms (parts : List (SumPart t)) : List (List Op) :=
  parts.map fun p => [.cumulativeSum t p.1 p.2]

theorem sumPrograms_eq (parts : List (SumPart t)) :
    sumPrograms parts = singlePrograms (parts.map fun p => .cumulativeSum t p.1 p.2) := by
  simp [sumPrograms, singlePrograms, Function.comp_def]

theorem NoOverflow.contribute {parts : List (SumPart t)} (h : NoOverflow word parts)
    {totals : List t.Carrier} (htotals : List.Forall₂ IsTotal parts totals) :
    Contribute (parts.map fun p => .cumulativeSum t p.1 p.2) (totals.map (.scalar t)) := by
  have hroom := h.room
  clear h
  induction htotals with
  | nil => exact .nil
  | @cons p v parts totals hp _ ih =>
      refine .cons ?_ (ih fun q hq => hroom q (by simp [hq]))
      simp only [Op.contribution?, if_neg (Nat.not_lt.mpr (hroom p (by simp))), hp.1]

/-- A rank answers the running sums that it computes from the totals of all. -/
theorem NoOverflow.endsWith {parts : List (SumPart t)} (h : NoOverflow word parts)
    {totals : List t.Carrier} (htotals : List.Forall₂ IsTotal parts totals) {r : Nat}
    {p : SumPart t} (hp : parts[r]? = some p) {out : List t.Carrier}
    (hout : cumulativeSumAnswer r t p.1 p.2 (totals.map fun v => some (.scalar t v)) =
      (.ok (), out)) : World.EndsWith (sumPrograms parts) r [.buffer t (.ok ()) out] := by
  have hop : (parts.map fun p => Op.cumulativeSum t p.1 p.2)[r]? =
      some (.cumulativeSum t p.1 p.2) := by
    rw [List.getElem?_map, hp, Option.map_some]
  have hends := World.endsWith_of_gathers (h.contribute htotals) hop
  rw [List.map_map] at hends
  simpa only [sumPrograms_eq, Op.gathered, Function.comp_def, hout] using hends

/-- Every rank succeeds, and the outputs are summed up, whatever the order in which
the ranks act. -/
def World.SumsUp (parts : List (SumPart t)) : Prop :=
  ∃ outs : List (List t.Carrier), SummedUp parts outs ∧
    (World.start parts.length (sumPrograms parts)).run.answers =
      (outs.map fun out => [.buffer t (.ok ()) out]) ∧
    ∀ rs w, (World.start parts.length (sumPrograms parts)).follow rs = some w → w.Complete →
      w.answers = outs.map fun out => [.buffer t (.ok ()) out]

theorem NoOverflow.sumsUp (ht : t.word? = some word) {parts : List (SumPart t)} (hne : parts ≠ [])
    (h : NoOverflow word parts) : World.SumsUp parts := by
  obtain ⟨totals, htotals⟩ := h.exists_totals ht
  obtain ⟨outs, hlength, hanswers, hfronts, hrests⟩ :=
    NoOverflow.exists_outputs ht (show NoOverflow word ([] ++ parts) from h) htotals
  have hcomplete : ∀ rs w, (World.start parts.length (sumPrograms parts)).follow rs = some w →
      w.Complete → w.answers = outs.map fun out => [.buffer t (.ok ()) out] := by
    intro rs w hrun hdone
    apply List.ext_getElem?
    intro r
    rw [List.getElem?_map]
    by_cases hr : r < parts.length
    · have hp := List.getElem?_eq_getElem hr
      obtain ⟨out, hout, hanswer⟩ := hanswers r _ hp
      rw [List.length_nil, Nat.zero_add] at hanswer
      have hends := (h.endsWith htotals hp hanswer).2
      rw [sumPrograms, List.length_map] at hends
      rw [hends rs w hrun hdone, hout, Option.map_some]
    · have hranks : w.ranks.length = max parts.length 1 :=
        (World.onPrograms_of_follow hrun).size_eq
      have hpos := List.length_pos_iff.mpr hne
      rw [World.answers, List.getElem?_map, List.getElem?_eq_none (by omega),
        List.getElem?_eq_none (by omega)]
      rfl
  obtain ⟨rs, hrun, hdone⟩ :=
    World.exists_follow_run (World.start parts.length (sumPrograms parts))
  refine ⟨outs, ⟨hlength, ?_, hrests⟩, hcomplete rs _ hrun hdone, hcomplete⟩
  rw [hfronts]
  simp [allInputs]

def Portion.slice {α : Type} (p : Portion) (xs : List α) : List α :=
  (xs.drop p.start.toNat).take (p.stop - p.start).toNat

/-- The parts of the given number of ranks, each with its portion of the data. -/
def splitParts (data : List t.Carrier) (ranks : Nat) (portion : Nat → Portion)
    (output : Nat → List t.Carrier) : List (SumPart t) :=
  (List.range ranks).map fun r => ((portion r).slice data, output r)

/-- The portions of the ranks, one behind the other, are the data. -/
theorem allInputs_splitParts (data : List t.Carrier) {ranks : Nat} (hranks : 0 < ranks)
    (output : Nat → List t.Carrier) :
    allInputs (splitParts data ranks (fun r => ⟨Portion.bound data.length ranks r,
      Portion.bound data.length ranks (r + 1)⟩) output) = data := by
  have hslices := flatMap_slices data (Portion.bound_zero data.length ranks)
    (Portion.bound_le_succ data.length ranks) ranks
  rw [Portion.bound_last hranks, List.take_length] at hslices
  rw [allInputs, splitParts, List.flatMap_map]
  conv => rhs; rw [← hslices]
  congr 1
  funext r
  have hle := Portion.bound_le_succ data.length ranks r
  simp only [Portion.slice, Int.toNat_natCast]
  congr 1
  omega

/-- For nonnegative numbers of an integer type whose grand total fits, and outputs with
room for them, the cumulative sum over any number of ranks is the serial one: every
rank succeeds, the fronts of the outputs in the order of the ranks are the running
sums of the inputs in the order of the ranks, and the rest of every output is left. So
it is for any data that is split into balanced portions. -/
theorem World.cumulativeSum_serial (ht : t.word? = some word) :
    (∀ parts : List (SumPart t), parts ≠ [] → Summable word parts → World.SumsUp parts) ∧
    ∀ (data : List t.Carrier) (ranks : Nat) (output : Nat → List t.Carrier), 0 < ranks →
      Word.i64.Fits data.length → (∀ v ∈ data, 0 ≤ t.value v) → word.Fits (t.total data) →
      ∃ portion : Nat → Portion,
        (∀ r < ranks, Portion.of data.length ranks r = .ok (portion r)) ∧
        allInputs (splitParts data ranks portion output) = data ∧
        ((∀ r < ranks, ((portion r).slice data).length ≤ (output r).length) →
          World.SumsUp (splitParts data ranks portion output)) := by
  refine ⟨fun parts hne h => (h.noOverflow ht).sumsUp ht hne, ?_⟩
  intro data ranks output hranks hlength hnonneg hfits
  have hall := allInputs_splitParts data hranks output
  refine ⟨_, fun r hr => Portion.of_eq hlength hr, hall, fun hroom => ?_⟩
  refine NoOverflow.sumsUp ht ?_ (Summable.noOverflow ht ⟨?_, by rwa [hall], by rwa [hall]⟩)
  · simp [splitParts]
    omega
  · intro p hp
    obtain ⟨r, hr, rfl⟩ := List.mem_map.mp hp
    exact hroom r (List.mem_range.mp hr)

/-- Three ranks, the middle one with nothing to add, up to the greatest number of
the type. -/
def fullParts : List (SumPart .int8) :=
  [([(100 : Int), (20 : Int)], [(1 : Int), (2 : Int), (3 : Int)]), ([], []),
    ([(7 : Int)], [(9 : Int)])]

/-- Six numbers up to the greatest number of the type, for four ranks. -/
def fullData : List (ElementType.uint64).Carrier :=
  [(1 : Int), (2 : Int), (3 : Int), (0 : Int), (5 : Int), (18446744073709551604 : Int)]

theorem World.fullParts_sumsUp :
    World.SumsUp fullParts ∧
    ∃ portion : Nat → Portion, (∀ r : Nat, r < 4 → Portion.of 6 4 r = .ok (portion r)) ∧
      allInputs (splitParts fullData 4 portion fun _ => [(8 : Int), (9 : Int)]) = fullData ∧
      World.SumsUp (splitParts fullData 4 portion fun _ => [(8 : Int), (9 : Int)]) := by
  have hbyte : (ElementType.int8).word? = some (.signed 8) := rfl
  have hlong : (ElementType.uint64).word? = some (.unsigned 64) := rfl
  obtain ⟨hparts, -⟩ := World.cumulativeSum_serial hbyte
  obtain ⟨-, hsplit⟩ := World.cumulativeSum_serial hlong
  refine ⟨hparts fullParts (by simp [fullParts]) ⟨by decide, by decide, by decide⟩, ?_⟩
  obtain ⟨portion, hportion, hall, hsums⟩ := hsplit fullData 4 (fun _ => [(8 : Int), (9 : Int)])
    (by decide) (by decide) (by decide) (by decide)
  refine ⟨portion, hportion, hall, hsums fun r hr => ?_⟩
  have hlen : ∀ p, Portion.of fullData.length 4 r = .ok p → (p.slice fullData).length ≤ 2 := by
    intro p hp
    match r with
    | 0 | 1 | 2 | 3 => cases hp; decide
    | r + 4 => omega
  exact hlen _ (hportion r hr)

end Spmd

end SpmdArrays
