import SpmdArrays.Proofs.Lowering.HelperRun

/-!
The helper for cumulative sums and the cumulative sum of the ranks. On every rank the
helper asks the scan with the total that the rank lays down, and where no sum leaves its
type, it leaves the output that the rank answers.
-/

namespace SpmdArrays.Lowering.CumulativeSum

open Llvm (Ty Operand Instr Session Definition Native Memory Pointer Reaches)
open Spmd (SumPart NoOverflow IsTotal World allInputs sumPrograms)

section

variable {k : ScalarKind} {elem : ElementType} {word : Word}

theorem isInt_of_word (hk : ScalarKind.ofElement? elem = some k) (hword : elem.word? = some word) :
    k.type.isInt := by
  cases elem <;> cases hk <;> cases hword <;> rfl

/-- What fits the type of the ranks is kept by the arithmetic of the code. -/
theorem wrap_of_word (hk : ScalarKind.ofElement? elem = some k) (hword : elem.word? = some word)
    {v : Int} (h : word.Fits v) : k.type.wrap v = v := by
  refine Ty.wrap_of_fits (Ty.size_pos (isWord_type k)) ?_
  cases elem <;> cases hk <;> cases hword <;> exact h

/-- The running sums that the helper writes are those of the ranks. -/
theorem wrapped_prefixSums (hk : ScalarKind.ofElement? elem = some k)
    (hword : elem.word? = some word) {input : List elem.Carrier} {c : Int}
    (hfits : ∀ n, word.Fits (c + elem.total (input.take n))) :
    ((prefixSums (input.map elem.value)).map fun total => k.type.wrap (c + total)) =
      (prefixSums (input.map elem.value)).map (c + ·) := by
  apply List.map_congr_left
  intro total htotal
  obtain ⟨i, -, rfl⟩ := List.mem_map.mp htotal
  refine wrap_of_word hk hword ?_
  rw [← List.map_take]
  exact hfits (i + 1)

variable {parts : List (SumPart elem)} {totals : List elem.Carrier} {r : Nat} {p : SumPart elem}
  {native : Native}

/-- The helper on one rank, with a scan that answers the sum of all inputs in front. -/
theorem Job.leaves_output (hk : ScalarKind.ofElement? elem = some k)
    (hword : elem.word? = some word) (h : NoOverflow word parts) (hp : parts[r]? = some p)
    {total start : elem.Carrier} (htotal : elem.value total = elem.total p.1)
    (hstart : elem.value start = elem.total (allInputs (parts.take r)))
    {front : List elem.Carrier} (hfront : front.map elem.value =
      (prefixSums (p.1.map elem.value)).map (elem.total (allInputs (parts.take r)) + ·))
    (j : Job k) (hvalues : j.values = p.1.map elem.value)
    (hbefore : j.memory.Holds k.type j.target (p.2.map elem.value))
    (hscan : native (scanSymbol k) [.word (elem.value total)] = some (.word (elem.value start))) :
    ∃ f, Reaches native (helperDefinition k).code ((helperDefinition k).enter j.args j.memory)
        (.returned (some (.word 0)) f) ∧
      f.calls = [(scanSymbol k, [.word (elem.value total)])] ∧
      f.memory.Holds k.type j.target ((front ++ p.2.drop p.1.length).map elem.value) := by
  have hsum : k.type.wrap j.values.sum = elem.value total := by
    have hfits := h.own p (List.mem_of_getElem? hp) p.1.length
    rw [List.take_length] at hfits
    rw [hvalues, htotal, ← ElementType.total, wrap_of_word hk hword hfits]
  rw [← hsum] at hscan
  obtain ⟨f, hrun, hcalls, hholds, hagree, -⟩ :=
    j.helper_runs (isInt_of_word hk hword) hscan
  have hlength : j.values.length = p.1.length := by simp [hvalues]
  refine ⟨f, hrun, by rw [hcalls, hsum], ?_⟩
  rw [hvalues, hstart, wrapped_prefixSums hk hword (h.running r p hp), ← hfront] at hholds
  have hfrontLength : front.length = p.1.length := by
    simpa using congrArg List.length hfront
  rw [List.map_append]
  refine hholds.append fun i y hy => ?_
  -- behind the sums the output is as it was
  rw [List.map_drop, List.getElem?_drop] at hy
  rw [List.length_map, hfrontLength]
  exact hagree.load_behind (by omega) (hbefore _ _ hy)

theorem scan_endsWith (hword : elem.word? = some word) (h : NoOverflow word parts)
    (htotals : List.Forall₂ IsTotal parts totals) (hp : parts[r]? = some p) :
    ∃ start, World.EndsWith (totals.map fun v => [.exclusiveScan elem v]) r
        [.value elem (.ok start)] ∧
      elem.value start = elem.total (allInputs (parts.take r)) := by
  obtain ⟨start, hstart, hvalue⟩ := h.exclusiveScanAnswer_eq hword htotals r
  refine ⟨start, ?_, hvalue⟩
  have hcontribute : Spmd.Contribute (totals.map (.exclusiveScan elem))
      (totals.map (.scalar elem)) := by
    rw [Spmd.Contribute, List.forall₂_map_left_iff, List.forall₂_map_right_iff]
    exact List.forall₂_same.mpr fun _ _ => rfl
  obtain ⟨total, hr⟩ : ∃ total, totals[r]? = some total := by
    refine ⟨_, List.getElem?_eq_getElem ?_⟩
    rw [← htotals.length_eq]
    exact (List.getElem?_eq_some_iff.mp hp).1
  have hop : (totals.map (Spmd.Op.exclusiveScan elem))[r]? = some (.exclusiveScan elem total) := by
    rw [List.getElem?_map, hr, Option.map_some]
  have hends := World.endsWith_of_gathers hcontribute hop
  rw [List.map_map] at hends
  simpa only [Spmd.singlePrograms, List.map_map, Spmd.Op.gathered, Function.comp_def, hstart]
    using hends

end

/-- For every kind of integers the helper that is added to a module computes cumulative
sums. Whatever the memory, it returns zero, has called the scan once with the sum of the
input, and has written the running sums on top of the answer, without changing anything
else but its two slots; without numbers it writes nothing. Where no sum leaves the type,
this is what the ranks do: the helper asks for the scan of the total that its rank lays
down, and if it is answered what the rank is answered, it leaves the output of the rank. -/
theorem helper_cumulativeSum {k : ScalarKind} (hint : k.type.isInt) {s t : Session}
    {name : String} (hnew : s.module.isDefined (helperName k) = false)
    (h : ensureHelper k s = .ok name t) :
    ∃ d : Definition, d.name = name ∧ t.module.definitions = s.module.definitions.push d ∧
      (∀ (native : Native) (j : Job k) (c : Int),
        native (scanSymbol k) [.word (k.type.wrap j.values.sum)] = some (.word c) →
        ∃ f, Reaches native d.code (d.enter j.args j.memory) (.returned (some (.word 0)) f) ∧
          f.calls = [(scanSymbol k, [.word (k.type.wrap j.values.sum)])] ∧
          f.memory.Holds k.type j.target
            ((prefixSums j.values).map fun total => k.type.wrap (c + total)) ∧
          Memory.Agree (Memory.arrayBytes k.type j.target j.values.length) j.memory f.memory ∧
          f.memory.count = j.memory.count + 2 ∧
          (j.length ≤ 0 → Memory.Agree (fun _ _ => False) j.memory f.memory)) ∧
      ∀ (elem : ElementType) (word : Word), ScalarKind.ofElement? elem = some k →
        elem.word? = some word → ∀ parts : List (SumPart elem), NoOverflow word parts →
        ∃ totals, List.Forall₂ (fun p v => elem.sum p.1 = .ok v) parts totals ∧
          ∀ (r : Nat) (p : SumPart elem) (total : elem.Carrier), parts[r]? = some p →
            totals[r]? = some total →
            ∃ start out,
              World.EndsWith (totals.map fun v => [.exclusiveScan elem v]) r
                [.value elem (.ok start)] ∧
              World.EndsWith (sumPrograms parts) r [.buffer elem (.ok ()) out] ∧
              ∀ (native : Native) (j : Job k), j.values = p.1.map elem.value →
                j.memory.Holds k.type j.target (p.2.map elem.value) →
                native (scanSymbol k) [.word (elem.value total)] =
                  some (.word (elem.value start)) →
                ∃ f, Reaches native d.code (d.enter j.args j.memory)
                    (.returned (some (.word 0)) f) ∧
                  f.calls = [(scanSymbol k, [.word (elem.value total)])] ∧
                  f.memory.Holds k.type j.target (out.map elem.value) := by
  obtain ⟨rfl, hdefinition⟩ := ensureHelper_eq_ok h
  obtain ⟨m, m', hm, hm', rfl⟩ := hdefinition.resolve_left fun hold => by
    rw [hnew] at hold
    exact absurd hold.1 Bool.false_ne_true
  refine ⟨helperDefinition k, rfl, ?_, ?_, ?_⟩
  · change m'.definitions.push (helperDefinition k) = _
    rw [Llvm.Module.definitions_of_declare hm', Llvm.Module.definitions_of_declare hm]
  · intro native j c hscan
    obtain ⟨f, hrun, hcalls, hholds, hagree, hcount⟩ := j.helper_runs hint hscan
    refine ⟨f, hrun, hcalls, hholds, hagree, hcount, fun hlength => ?_⟩
    have hnone : j.values.length = 0 := by
      have := j.size
      omega
    refine ⟨hagree.count, hagree.size, fun object hobject offset _ => ?_⟩
    refine hagree.byte object hobject offset fun hin => ?_
    rw [hnone] at hin
    obtain ⟨-, hlo, hhi⟩ := hin
    simp only [Int.natCast_zero, mul_zero, add_zero] at hhi
    omega
  · intro elem word hk hword parts hparts
    obtain ⟨totals, htotals⟩ := hparts.exists_totals hword
    refine ⟨totals, htotals.imp fun _ _ hp => hp.1, fun r p total hp hr => ?_⟩
    obtain ⟨start, hscan, hstart⟩ := scan_endsWith hword hparts htotals hp
    obtain ⟨front, hanswer, hfront⟩ := hparts.cumulativeSumAnswer_eq hword htotals hp
    refine ⟨start, _, hscan, hparts.endsWith htotals hp hanswer, fun native j hvalues hbefore => ?_⟩
    have htotal : elem.value total = elem.total p.1 := by
      obtain ⟨hlt, rfl⟩ := List.getElem?_eq_some_iff.mp hp
      obtain ⟨hlt', rfl⟩ := List.getElem?_eq_some_iff.mp hr
      exact (htotals.get hlt hlt').2
    exact j.leaves_output hk hword hparts hp htotal hstart hfront hvalues hbefore

def threeNumbers : Memory :=
  (((⟨1, fun _ => 12, fun _ _ => 0⟩ : Memory).write ⟨0, 0⟩ 4 2).write ⟨0, 4⟩ 4 1).write ⟨0, 8⟩ 4 3

/-- The sums take the place of the numbers. -/
def inPlace : Job .i32 where
  memory := threeNumbers
  source := ⟨0, 0⟩
  target := ⟨0, 0⟩
  length := 3
  values := [2, 1, 3]
  fits := by decide
  size := rfl
  holds := by decide
  room := by decide
  apart := .inl rfl

/-- A rank with a five, and behind it one with the three numbers. -/
def twoRanks : List (SumPart .int32) :=
  [([(5 : Int)], [(0 : Int)]),
    ([(2 : Int), (1 : Int), (3 : Int)], [(2 : Int), (1 : Int), (3 : Int)])]

theorem noOverflow_twoRanks : NoOverflow (Word.signed 32) twoRanks :=
  Spmd.Summable.noOverflow rfl ⟨by decide, by decide, by decide⟩

def sumKernel : Session := ⟨.start "main" {}, .start "kernel" .i32 [(.ptr, "a")] false⟩

theorem helper_cumulativeSum_inPlace :
    ∃ name t, ensureHelper .i32 sumKernel = .ok name t ∧ ∃ d : Definition, d.name = name ∧
      t.module.definitions = #[d] ∧
      (∃ f, Reaches (fun _ _ => some (.word 10)) d.code (d.enter inPlace.args threeNumbers)
          (.returned (some (.word 0)) f) ∧
        f.calls = [("hdl_dist_exscan_i4", [.word 6])] ∧
        f.memory.Holds .i32 ⟨0, 0⟩ [12, 13, 16]) ∧
      ∃ out : List Int, World.EndsWith (sumPrograms twoRanks) 1 [.buffer .int32 (.ok ()) out] ∧
        ∃ native f, Reaches native d.code (d.enter inPlace.args threeNumbers)
          (.returned (some (.word 0)) f) ∧
        f.memory.Holds .i32 ⟨0, 0⟩ (out.map (ElementType.value .int32)) := by
  have hok : Llvm.Emit.succeeds (ensureHelper .i32) sumKernel := by decide +kernel
  obtain ⟨name, t, h⟩ := Llvm.Emit.exists_of_succeeds hok
  obtain ⟨d, hname, hd, hruns, hranks⟩ := helper_cumulativeSum rfl (by decide +kernel) h
  refine ⟨name, t, h, d, hname, hd, ?_, ?_⟩
  · obtain ⟨f, hrun, hcalls, hholds, -⟩ := hruns (fun _ _ => some (.word 10)) inPlace 10 rfl
    exact ⟨f, hrun, hcalls, hholds⟩
  · obtain ⟨totals, htotals, hrank⟩ := hranks .int32 _ rfl rfl twoRanks noOverflow_twoRanks
    have hlength := htotals.length_eq
    obtain ⟨start, out, -, hout, hleaves⟩ := hrank 1 _ _ rfl
      (List.getElem?_eq_getElem (by rw [← hlength]; decide))
    obtain ⟨f, hrun, -, hholds⟩ := hleaves (fun _ _ => some (.word _)) inPlace rfl inPlace.holds rfl
    exact ⟨out, hout, _, f, hrun, hholds⟩

end SpmdArrays.Lowering.CumulativeSum
