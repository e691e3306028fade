import SpmdArrays.Proofs.Llvm.Machine
import SpmdArrays.Proofs.Lowering.HelperCode
import SpmdArrays.Proofs.Spmd.PrefixSums

/-!
What the helper for cumulative sums does when it runs. Both of its loops go once through
the numbers and keep their counter and their sum in slots; the second one also writes, and
may write over the numbers it has just read. One rule serves both loops: a body that takes
an invariant from one round to the next takes it from the first round to the last. The
invariant says how far the sums have been written, that the numbers behind them are still
there, and that nothing else has changed.
-/

namespace SpmdArrays.Lowering.CumulativeSum

open Llvm (Ty Operand Instr Frame Datum Native Memory Pointer Reaches)

/-! ### Where the loops are -/

/-- A loop stands in some code, with the given code behind it. -/
structure Placed (whole : List Instr) (labels : LoopLabels) (n : Nat) (body rest : List Instr) :
    Prop where
  cond : ∃ code, Llvm.blockAt labels.cond whole = some (testCode labels counter n ++ code)
  step : ∃ code, Llvm.blockAt labels.step whole =
    some (body ++ (advanceCode labels counter n (n + ((Llvm.defined body).length + 2)) ++ code))
  done : Llvm.blockAt labels.done whole = some rest

def returnCode : List Instr := [.ret (some (.i32 0))]

def secondHalf (k : ScalarKind) : List Instr :=
  scanCode k ++ (loopCode writeLabels counter 11 (writeCode k) ++ returnCode)

theorem placed_sum (k : ScalarKind) :
    Placed (helperDefinition k).code sumLabels 2 (sumCode k) (secondHalf k) := by
  cases k <;> exact ⟨⟨_, rfl⟩, ⟨_, rfl⟩, rfl⟩

theorem placed_write (k : ScalarKind) :
    Placed (helperDefinition k).code writeLabels 11 (writeCode k) returnCode := by
  cases k <;> exact ⟨⟨_, rfl⟩, ⟨_, rfl⟩, rfl⟩

/-! ### Kinds of numbers -/

theorem isWord_type (k : ScalarKind) : k.type.isWord := by
  cases k <;> rfl

theorem eval_zero (k : ScalarKind) (f : Frame) : f.eval (.zero k.type) = some (.word 0) := by
  cases k <;> rfl

theorem addOf_eq_add {k : ScalarKind} (hint : k.type.isInt) :
    Llvm.BinaryOp.addOf k.type = .add := by
  cases k with
  | i32 | i64 => rfl
  | f32 | f64 => cases hint

/-! ### What the helper works on -/

/-- A call of the helper: a memory with an input of as many numbers as are asked for and
with room for as many in the output, which is the same array or lies apart from it. Of a
length below zero there are no numbers. -/
structure Job (k : ScalarKind) where
  memory : Memory
  source : Pointer
  target : Pointer
  length : Int
  values : List Int
  fits : Word.i64.Fits length
  size : values.length = length.toNat
  holds : memory.Holds k.type source values
  room : ∀ i < values.length, memory.Accessible (target.cell k.type i) k.type.size
  apart : source = target ∨ ∀ i < values.length, ∀ l < values.length,
    (target.cell k.type i).Apart k.type.size (source.cell k.type l) k.type.size

namespace Job

variable {k : ScalarKind} {j : Job k} {base : Int} {w i : Nat} {m m' : Memory} {f g : Frame}

def accSlot (j : Job k) : Pointer := ⟨j.memory.count, 0⟩

def counterSlot (j : Job k) : Pointer := ⟨j.memory.count + 1, 0⟩

/-- The names that all of the code uses stand for what they should. -/
structure Bound (j : Job k) (f : Frame) : Prop where
  hasAcc : f.Has 2 acc (.pointer j.accSlot)
  hasCounter : f.Has 2 counter (.pointer j.counterSlot)
  hasInput : f.Has 2 input (.pointer j.source)
  hasOutput : f.Has 2 output (.pointer j.target)
  hasLength : f.Has 2 CumulativeSum.length (.word j.length)

theorem Bound.of_eval (h : j.Bound f)
    (heval : ∀ {o : Operand}, o.Before 2 → g.eval o = f.eval o) : j.Bound g where
  hasAcc := h.hasAcc.congr (heval h.hasAcc.before)
  hasCounter := h.hasCounter.congr (heval h.hasCounter.before)
  hasInput := h.hasInput.congr (heval h.hasInput.before)
  hasOutput := h.hasOutput.congr (heval h.hasOutput.before)
  hasLength := h.hasLength.congr (heval h.hasLength.before)

theorem Bound.preserved (h : j.Bound f) (hfg : f.Preserves 2 g) : j.Bound g := h.of_eval hfg.eval

/-- The sum of the first numbers on top of a base. -/
def running (j : Job k) (base : Int) (i : Nat) : Int := k.type.wrap (base + (j.values.take i).sum)

theorem running_succ {x : Int} (hx : j.values[i]? = some x) :
    k.type.wrap (j.running base i + x) = j.running base (i + 1) := by
  rw [running, Ty.wrap_wrap_add, running, List.take_add_one, hx, Option.toList_some,
    List.sum_append, List.sum_singleton, Int.add_assoc]

theorem source_object {x : Int} (hx : j.values[i]? = some x) :
    j.source.object < j.memory.count :=
  (Memory.load_eq_some.mp (j.holds i x hx)).2.1.1

/-- The arrays when the first `w` sums on top of a base have been written: the numbers
behind them are still those of the input, and nothing else has changed. -/
structure Arrays (j : Job k) (base : Int) (w : Nat) (m : Memory) : Prop where
  count : m.count = j.memory.count + 2
  counter : m.Accessible j.counterSlot Ty.i64.size
  written : w ≤ j.values.length
  source : ∀ (i : Nat) (x : Int), w ≤ i → j.values[i]? = some x →
    m.load k.type (j.source.cell k.type i) = some x
  target : ∀ i < w, m.load k.type (j.target.cell k.type i) = some (j.running base (i + 1))
  agree : Memory.Agree (Memory.arrayBytes k.type j.target j.values.length) j.memory m

theorem Arrays.rebase (h : j.Arrays base 0 m) (base' : Int) : j.Arrays base' 0 m :=
  { h with target := fun i hi => absurd hi (Nat.not_lt_zero i) }

theorem Arrays.store_slot (h : j.Arrays base w m) {type : Ty} {q : Pointer} {v : Int}
    (hq : j.memory.count ≤ q.object) (hstore : m.store type q v = some m') :
    j.Arrays base w m' where
  count := by
    obtain ⟨-, -, rfl⟩ := Memory.store_eq_some.mp hstore
    exact h.count
  counter := by
    obtain ⟨-, -, rfl⟩ := Memory.store_eq_some.mp hstore
    exact h.counter
  written := h.written
  source i x hi hx := by
    have hobject := source_object hx
    exact Memory.load_store_apart hstore (.inl (by rw [Pointer.cell_object]; omega))
      (h.source i x hi hx)
  target i hi := by
    have hobject := (j.room i (Nat.lt_of_lt_of_le hi h.written)).1
    rw [Pointer.cell_object] at hobject
    exact Memory.load_store_apart hstore (.inl (by rw [Pointer.cell_object]; omega))
      (h.target i hi)
  agree := h.agree.store hstore fun hlt => absurd hlt (Nat.not_lt.mpr hq)

/-- The next sum is written. The numbers that are still needed lie behind it. -/
theorem Arrays.store_target (h : j.Arrays base w m) (hw : w < j.values.length)
    (hstore : m.store k.type (j.target.cell k.type w) (j.running base (w + 1)) = some m') :
    j.Arrays base (w + 1) m' where
  count := by
    obtain ⟨-, -, rfl⟩ := Memory.store_eq_some.mp hstore
    exact h.count
  counter := by
    obtain ⟨-, -, rfl⟩ := Memory.store_eq_some.mp hstore
    exact h.counter
  written := hw
  source i x hi hx := by
    have hlt := (List.getElem?_eq_some_iff.mp hx).1
    have hapart : (j.target.cell k.type w).Apart k.type.size (j.source.cell k.type i)
        k.type.size := by
      rcases j.apart with heq | hapart
      · rw [heq]
        exact Pointer.apart_cells (by omega)
      · exact hapart w hw i hlt
    exact Memory.load_store_apart hstore hapart (h.source i x (by omega) hx)
  target i hi := by
    rcases Nat.lt_succ_iff_lt_or_eq.mp hi with hlt | rfl
    · exact Memory.load_store_apart hstore (Pointer.apart_cells (by omega)) (h.target i hlt)
    · rw [Memory.load_store hstore, running, Ty.wrap_wrap]
  agree := by
    refine h.agree.store hstore fun _ offset hlo hhi => ⟨rfl, ?_, ?_⟩
    · rw [Pointer.cell_offset] at hlo
      have := Int.mul_nonneg (Int.natCast_nonneg k.type.size) (Int.natCast_nonneg w)
      omega
    · have hle : k.type.size * w + k.type.size ≤ k.type.size * j.values.length := by
        rw [← Nat.mul_succ]
        exact Nat.mul_le_mul_left _ hw
      rw [Pointer.cell_offset] at hhi
      have hcast : ((k.type.size * w + k.type.size : Nat) : Int) ≤
          (k.type.size * j.values.length : Nat) := by exact_mod_cast hle
      push_cast at hcast
      omega

/-- The accumulator has the sum of the first `i` numbers on top of the base. -/
structure Stage (j : Job k) (base : Int) (w i : Nat) (m : Memory) : Prop extends
    j.Arrays base w m where
  acc : m.load k.type j.accSlot = some (j.running base i)

theorem Stage.store_counter (h : j.Stage base w i m) {v : Int}
    (hstore : m.store .i64 j.counterSlot v = some m') : j.Stage base w i m' where
  toArrays := h.toArrays.store_slot (Nat.le_succ _) hstore
  acc := Memory.load_store_apart hstore (.inl (Nat.succ_ne_self _)) h.acc

/-! ### One number -/

variable {native : Native}

/-- The next number is added to the accumulator, and the sum is also in a register. -/
theorem exec_accumulate (hint : k.type.isInt) (hf : j.Bound f) (hm : j.Stage base w i f.memory)
    (hw : w ≤ i) (hi : i < j.values.length) {r n : Nat} (hn : 2 ≤ n)
    (hindex : f.eval (.register .i64 r) = some (.word i)) :
    ∃ g, Frame.execAll native (accumulateCode k.type acc r n) f = some g ∧ f.Preserves n g ∧
      g.eval (.register k.type (n + 3)) = some (.word (j.running base (i + 1))) ∧
      j.Stage base w (i + 1) g.memory ∧
      ∀ v, f.memory.load .i64 j.counterSlot = some v →
        g.memory.load .i64 j.counterSlot = some v := by
  obtain ⟨x, hx⟩ : ∃ x, j.values[i]? = some x := ⟨_, List.getElem?_eq_getElem hi⟩
  have hload := hm.source i x hw hx
  let f₁ := f.set n (.pointer (j.source.cell k.type i))
  let f₂ := f₁.set (n + 1) (.word x)
  let f₃ := f₂.set (n + 2) (.word (j.running base i))
  let f₄ := f₃.set (n + 3) (.word (j.running base (i + 1)))
  have hgep : f.exec native (.gep n k.type input [.register .i64 r]) = some f₁ := by
    rw [Frame.exec_gep hf.hasInput.eval hindex,
      Frame.address_of_accessible (Memory.load_eq_some.mp hload).2.1]
  have hnumber : f₁.exec native (.load (n + 1) k.type (.register .ptr n)) = some f₂ :=
    Frame.exec_load Frame.eval_set_self hload
  have hpres : f.Preserves n f₂ :=
    ((Frame.Preserves.refl n f).set (Nat.le_refl n)).set (Nat.le_succ n)
  have hsum : f₂.exec native (.load (n + 2) k.type acc) = some f₃ :=
    Frame.exec_load (hpres.has (hf.hasAcc.mono hn)).eval hm.acc
  have hadd : f₃.exec native (.binary (n + 3) (.addOf k.type) (.register k.type (n + 2))
      (.register k.type (n + 1))) = some f₄ := by
    have hx₃ : f₃.eval (.register k.type (n + 1)) = some (.word x) :=
      (Frame.eval_set_of_lt (Nat.lt_succ_self _)).trans Frame.eval_set_self
    have htype : (Operand.register k.type (n + 2)).type = k.type := rfl
    rw [addOf_eq_add hint, Frame.exec_add htype (by simp [hint, isWord_type]) Frame.eval_set_self
      hx₃, running_succ hx]
  have hpres₄ : f.Preserves n f₄ := (hpres.set (by omega)).set (by omega)
  obtain ⟨m', hm'⟩ := Memory.exists_store (isWord_type k) (Memory.load_eq_some.mp hm.acc).2.1
    (j.running base (i + 1))
  refine ⟨{ f₄ with memory := m' }, ?_, hpres₄.store m', Frame.eval_set_self, ?_, ?_⟩
  · rw [accumulateCode, Frame.execAll_cons hgep, Frame.execAll_cons hnumber,
      Frame.execAll_cons hsum, Frame.execAll_cons hadd, Frame.execAll_singleton]
    exact Frame.exec_store Frame.eval_set_self (hpres₄.has (hf.hasAcc.mono hn)).eval hm'
  · refine ⟨hm.toArrays.store_slot (Nat.le_refl _) hm', ?_⟩
    rw [Memory.load_store hm', running, Ty.wrap_wrap]
  · intro v hv
    exact Memory.load_store_apart hm' (.inl (Nat.succ_ne_self _).symm) hv

/-! ### Loops -/

/-- A body that keeps an invariant, which counts the rounds. The counter in its slot is
left alone, and so is the register that it was read into. -/
structure Iterates (native : Native) (j : Job k) (n : Nat) (body : List Instr)
    (inv : Nat → Memory → Prop) : Prop where
  stable : ∀ {i : Nat} {m m' : Memory} {v : Int}, inv i m →
    m.store .i64 j.counterSlot v = some m' → inv i m'
  round : ∀ {i : Nat} {f : Frame}, i < j.values.length → j.Bound f →
    f.eval (.register .i64 n) = some (.word i) → inv i f.memory →
    ∃ g, Frame.execAll native body f = some g ∧ f.Preserves (n + 2) g ∧ inv (i + 1) g.memory ∧
      ∀ v, f.memory.load .i64 j.counterSlot = some v → g.memory.load .i64 j.counterSlot = some v

/-- A run at the head of a loop, before round `i`. -/
structure AtHead (j : Job k) (inv : Nat → Memory → Prop) (i : Nat) (f : Frame) : Prop where
  bound : j.Bound f
  counter : f.memory.load .i64 j.counterSlot = some (i : Int)
  inv : inv i f.memory

section

variable {whole body rest code : List Instr} {labels : LoopLabels} {n : Nat}
  {inv : Nat → Memory → Prop}

theorem exec_test (h : j.AtHead inv i f) (hn : 2 ≤ n) :
    Frame.execAll native [.load n .i64 counter,
      .icmp (n + 1) "slt" (.register .i64 n) CumulativeSum.length] f =
      some ((f.set n (.word i)).set (n + 1) (.bit (decide ((i : Int) < j.length)))) := by
  have hpres : f.Preserves n (f.set n (.word i)) := (Frame.Preserves.refl n f).set (Nat.le_refl n)
  rw [Frame.execAll_cons (Frame.exec_load h.bound.hasCounter.eval h.counter),
    Frame.execAll_singleton]
  exact Frame.exec_icmp Frame.eval_set_self (hpres.has (h.bound.hasLength.mono hn)).eval
    (Llvm.compare?_slt ..)

theorem exec_advance (native : Native) {next : Nat} (hnext : 2 ≤ next) (hf : j.Bound f)
    (hindex : f.eval (.register .i64 n) = some (.word i)) (hfits : Word.i64.Fits ((i : Int) + 1))
    (hroom : f.memory.Accessible j.counterSlot Ty.i64.size) :
    ∃ g, Frame.execAll native [.binary next .add (.register .i64 n) (.i64 1),
        .store (.register .i64 next) counter] f = some g ∧
      f.Preserves 2 g ∧ f.memory.store .i64 j.counterSlot ((i : Int) + 1) = some g.memory := by
  let f₁ := f.set next (.word ((i : Int) + 1))
  have hadd : f.exec native (.binary next .add (.register .i64 n) (.i64 1)) = some f₁ := by
    have hone : Ty.i64.wrap 1 = 1 := by decide
    rw [Frame.exec_add rfl rfl hindex (Frame.eval_i64 f 1), hone, Operand.register,
      Ty.wrap_i64_of_fits hfits]
  have hpres : f.Preserves 2 f₁ := (Frame.Preserves.refl 2 f).set hnext
  obtain ⟨m', hm'⟩ := Memory.exists_store rfl hroom ((i : Int) + 1)
  refine ⟨{ f₁ with memory := m' }, ?_, hpres.store m', hm'⟩
  rw [Frame.execAll_cons hadd, Frame.execAll_singleton]
  exact Frame.exec_store Frame.eval_set_self (hpres.has hf.hasCounter).eval hm'

/-- One round, from the head of the loop to its head. -/
theorem round_runs (hplaced : Placed whole labels n body rest) (hn : 2 ≤ n)
    (hbody : j.Iterates native n body inv)
    (hcond : Llvm.blockAt labels.cond whole = some (testCode labels counter n ++ code))
    (hi : i < j.values.length) (h : j.AtHead inv i f) :
    ∃ g, Reaches native whole (.running (testCode labels counter n ++ code) f)
        (.running (testCode labels counter n ++ code) g) ∧
      f.Preserves 2 g ∧ j.AtHead inv (i + 1) g := by
  have hlt : (i : Int) < j.length := by
    have := j.size
    omega
  have hfits : Word.i64.Fits ((i : Int) + 1) := by
    have := j.fits
    rw [Word.fits_i64] at this ⊢
    omega
  obtain ⟨behind, hstep⟩ := hplaced.step
  let f₁ := (f.set n (.word i)).set (n + 1) (.bit (decide ((i : Int) < j.length)))
  have hpres₁ : f.Preserves 2 f₁ := ((Frame.Preserves.refl 2 f).set hn).set (by omega)
  have hindex₁ : f₁.eval (.register .i64 n) = some (.word i) :=
    (Frame.eval_set_of_lt (Nat.lt_succ_self n)).trans Frame.eval_set_self
  obtain ⟨f₂, hf₂, hpres₂, hinv, hkeep⟩ :=
    hbody.round hi (h.bound.preserved hpres₁) hindex₁ h.inv
  have hpres : f.Preserves 2 f₂ := hpres₁.trans hpres₂ (by omega)
  have hindex₂ : f₂.eval (.register .i64 n) = some (.word i) :=
    (hpres₂.eval (Operand.before_register (by omega))).trans hindex₁
  let next := n + ((Llvm.defined body).length + 2)
  obtain ⟨g, hg, hpres₃, hstore⟩ := exec_advance native (show 2 ≤ next by omega)
    (h.bound.preserved hpres) hindex₂ hfits (Memory.load_eq_some.mp (hkeep _ h.counter)).2.1
  have hpres₄ : f.Preserves 2 g := hpres.trans hpres₃ (Nat.le_refl 2)
  refine ⟨g, ?_, hpres₄, h.bound.preserved hpres₄, ?_, hbody.stable hinv hstore⟩
  · have htest : Reaches native whole (.running (testCode labels counter n ++ code) f)
        (.running (.condBr (.register .i1 (n + 1)) labels.step labels.done :: code) f₁) :=
      Reaches.of_execAll (exec_test h hn)
    have hjump : Reaches native whole
        (.running (.condBr (.register .i1 (n + 1)) labels.step labels.done :: code) f₁)
        (.running (body ++ (advanceCode labels counter n next ++ behind)) f₁) :=
      Reaches.condBr Frame.eval_set_self (by rw [decide_eq_true hlt]; exact hstep)
    have hadvance : Reaches native whole
        (.running (advanceCode labels counter n next ++ behind) f₂)
        (.running (.br labels.cond :: behind) g) := Reaches.of_execAll hg
    exact htest.trans (hjump.trans ((Reaches.of_execAll hf₂).trans
      (hadvance.trans (Reaches.br hcond))))
  · rw [Memory.load_store hstore, Ty.wrap_i64_of_fits hfits, Int.natCast_succ]

theorem rounds_run (hplaced : Placed whole labels n body rest) (hn : 2 ≤ n)
    (hbody : j.Iterates native n body inv)
    (hcond : Llvm.blockAt labels.cond whole = some (testCode labels counter n ++ code))
    (hi : i ≤ j.values.length) (h : j.AtHead inv i f) :
    ∃ g, Reaches native whole (.running (testCode labels counter n ++ code) f) (.running rest g) ∧
      f.Preserves 2 g ∧ j.Bound g ∧ inv j.values.length g.memory := by
  induction hleft : j.values.length - i generalizing i f with
  | zero =>
      have hdone : ¬ (i : Int) < j.length := by
        have := j.size
        omega
      obtain rfl : i = j.values.length := by omega
      let f₁ := (f.set n (.word j.values.length)).set (n + 1)
        (.bit (decide ((j.values.length : Int) < j.length)))
      have hpres : f.Preserves 2 f₁ := ((Frame.Preserves.refl 2 f).set hn).set (by omega)
      have htest : Reaches native whole (.running (testCode labels counter n ++ code) f)
          (.running (.condBr (.register .i1 (n + 1)) labels.step labels.done :: code) f₁) :=
        Reaches.of_execAll (exec_test h hn)
      have hjump : Reaches native whole
          (.running (.condBr (.register .i1 (n + 1)) labels.step labels.done :: code) f₁)
          (.running rest f₁) :=
        Reaches.condBr Frame.eval_set_self (by rw [decide_eq_false hdone]; exact hplaced.done)
      exact ⟨f₁, htest.trans hjump, hpres, h.bound.preserved hpres, h.inv⟩
  | succ left ih =>
      obtain ⟨f₁, hround, hpres, h₁⟩ := round_runs hplaced hn hbody hcond (by omega) h
      obtain ⟨g, hrest, hpres', hbound, hinv⟩ := ih (by omega) h₁ (by omega)
      exact ⟨g, hround.trans hrest, hpres.trans hpres' (Nat.le_refl 2), hbound, hinv⟩

/-- A loop that is entered with its counter at zero runs a round for every number. -/
theorem loop_runs (hplaced : Placed whole labels n body rest) (hn : 2 ≤ n)
    (hbody : j.Iterates native n body inv) (h : j.AtHead inv 0 f) :
    ∃ g, Reaches native whole (.running (loopCode labels counter n body ++ rest) f)
        (.running rest g) ∧
      f.Preserves 2 g ∧ j.Bound g ∧ inv j.values.length g.memory := by
  obtain ⟨code, hcond⟩ := hplaced.cond
  obtain ⟨g, hrun, hg⟩ := rounds_run hplaced hn hbody hcond (Nat.zero_le _) h
  exact ⟨g, (Reaches.br hcond).trans hrun, hg⟩

end

theorem iterates_sum (hint : k.type.isInt) : j.Iterates native 2 (sumCode k) (j.Stage 0 0) where
  stable h hstore := h.store_counter hstore
  round hi hf hindex hm := by
    obtain ⟨g, hg, hpres, -, hstage, hkeep⟩ := exec_accumulate hint hf hm (Nat.zero_le _) hi
      (show 2 ≤ 4 by decide) hindex
    exact ⟨g, hg, hpres, hstage, hkeep⟩

/-- A number of the input is added up before its place in the output is written, which may
be its own. -/
theorem iterates_write (hint : k.type.isInt) :
    j.Iterates native 11 (writeCode k) (fun i => j.Stage base i i) where
  stable h hstore := h.store_counter hstore
  round := by
    intro i f hi hf hindex hm
    obtain ⟨g, hg, hpres, hsum, hstage, hkeep⟩ := exec_accumulate hint hf hm (Nat.le_refl i) hi
      (show 2 ≤ 13 by decide) hindex
    have hpres₂ : f.Preserves 2 g := (Frame.Preserves.refl 2 f).trans hpres (by decide)
    have hindex' : g.eval (.register .i64 11) = some (.word i) :=
      (hpres.eval (Operand.before_register (by decide))).trans hindex
    have hroom := hstage.agree.accessible (j.room i hi)
    let g₁ := g.set 17 (.pointer (j.target.cell k.type i))
    have hgep : g.exec native (.gep 17 k.type output [.register .i64 11]) = some g₁ := by
      rw [Frame.exec_gep (hf.preserved hpres₂).hasOutput.eval hindex',
        Frame.address_of_accessible hroom]
    have hsum₁ : g₁.eval (.register k.type 16) = some (.word (j.running base (i + 1))) :=
      (Frame.eval_set_of_lt (by decide)).trans hsum
    obtain ⟨m', hm'⟩ := Memory.exists_store (isWord_type k) hroom (j.running base (i + 1))
    have hstore : g₁.exec native (.store (.register k.type 16) (.register .ptr 17)) =
        some { g₁ with memory := m' } :=
      Frame.exec_store hsum₁ Frame.eval_set_self hm'
    have hobject := (j.room i hi).1
    rw [Pointer.cell_object] at hobject
    refine ⟨{ g₁ with memory := m' }, ?_, (hpres.set (by decide)).store m', ⟨?_, ?_⟩, ?_⟩
    · rw [writeCode, Frame.execAll_append, hg, Option.bind_some, Frame.execAll_cons hgep,
        Frame.execAll_singleton, hstore]
    · exact hstage.toArrays.store_target hi hm'
    · exact Memory.load_store_apart hm' (.inl (Nat.ne_of_lt hobject)) hstage.acc
    · intro v hv
      exact Memory.load_store_apart hm' (.inl (Nat.ne_of_lt (Nat.lt_succ_of_lt hobject)))
        (hkeep v hv)

/-! ### The whole helper -/

def args (j : Job k) : List Datum := [.pointer j.source, .pointer j.target, .word j.length]

def withSlots (j : Job k) : Memory := (j.memory.alloc k.type.size).alloc 8

theorem agree_withSlots (j : Job k) (region : Nat → Int → Prop) :
    Memory.Agree region j.memory j.withSlots :=
  ((Memory.Agree.refl region j.memory).alloc _).alloc _

theorem accessible_accSlot (j : Job k) : j.withSlots.Accessible j.accSlot k.type.size := by
  have hlt : j.memory.count < j.memory.count + 1 + 1 := by omega
  simp [Memory.Accessible, withSlots, accSlot, Memory.alloc, hlt]

theorem arrays_withSlots (j : Job k) : j.Arrays 0 0 j.withSlots where
  count := rfl
  counter := by simp [Memory.Accessible, withSlots, counterSlot, Memory.alloc, Ty.size]
  written := Nat.zero_le _
  source i x _ hx := (j.agree_withSlots fun _ _ => False).load (j.holds i x hx)
    fun _ _ _ => not_false
  target i hi := absurd hi (Nat.not_lt_zero i)
  agree := j.agree_withSlots _

theorem exec_restart (native : Native) {value : Operand} {v : Int}
    (hvalue : f.eval value = some (.word v)) (htype : value.type = k.type) (hf : j.Bound f)
    (hm : j.Arrays base 0 f.memory) (hacc : f.memory.Accessible j.accSlot k.type.size) :
    ∃ g, Frame.execAll native [.store value acc, .store (.i64 0) counter] f = some g ∧
      f.Preserves 2 g ∧ j.Stage v 0 0 g.memory ∧ g.memory.load .i64 j.counterSlot = some 0 := by
  obtain ⟨m₁, hm₁⟩ := Memory.exists_store (isWord_type k) hacc v
  have harrays := (hm.store_slot (Nat.le_refl _) hm₁).rebase v
  have hstage : j.Stage v 0 0 m₁ := by
    refine ⟨harrays, ?_⟩
    rw [Memory.load_store hm₁, running, List.take_zero, List.sum_nil, Int.add_zero]
  obtain ⟨m₂, hm₂⟩ := Memory.exists_store rfl harrays.counter 0
  have hstore : f.exec native (.store value acc) = some { f with memory := m₁ } :=
    Frame.exec_store hvalue hf.hasAcc.eval (by rw [htype, hm₁])
  have hreset : Frame.exec native { f with memory := m₁ } (.store (.i64 0) counter) =
      some { f with memory := m₂ } :=
    Frame.exec_store (Frame.eval_i64 _ 0) hf.hasCounter.eval hm₂
  refine ⟨{ f with memory := m₂ }, ?_, (Frame.Preserves.refl 2 f).store m₂,
    hstage.store_counter hm₂, Memory.load_store hm₂⟩
  rw [Frame.execAll_cons hstore, Frame.execAll_singleton, hreset]

/-- The start of the helper, up to its first loop. -/
theorem start_runs (native : Native) (j : Job k) :
    ∃ f, Reaches native (helperDefinition k).code
        ((helperDefinition k).enter j.args j.memory)
        (.running (loopCode sumLabels counter 2 (sumCode k) ++ secondHalf k) f) ∧
      f.calls = [] ∧ j.AtHead (j.Stage 0 0) 0 f := by
  let f₀ : Frame :=
    { names := fun name => (((helperDefinition k).params.zip j.args).find? fun p =>
        p.1.atom.text == name).map Prod.snd
      memory := j.memory }
  let f₁ := ({ f₀ with memory := j.memory.alloc k.type.size } : Frame).set 0 (.pointer j.accSlot)
  let f₂ := ({ f₁ with memory := j.withSlots } : Frame).set 1 (.pointer j.counterSlot)
  have hslots : Frame.execAll native (helperSlots k) f₀ = some f₂ := rfl
  have hparam : ∀ {o : Operand} {v : Datum}, o.Before 0 → f₀.eval o = some v → f₂.Has 2 o v :=
    fun {o v} hbefore ho => ⟨hbefore.mono (Nat.zero_le 2),
      (Frame.eval_set (hbefore.mono (Nat.zero_le 1)) (Nat.le_refl 1)).trans
        ((Frame.eval_set hbefore (Nat.le_refl 0)).trans ho)⟩
  have hacc : f₁.eval acc = some (.pointer j.accSlot) := Frame.eval_set_self
  have hbound : j.Bound f₂ :=
    { hasAcc := ⟨Operand.before_register (by decide),
        (Frame.eval_set_of_lt (by decide)).trans hacc⟩
      hasCounter := ⟨Operand.before_register (by decide), Frame.eval_set_self⟩
      hasInput := hparam (Operand.before_param 0 (by decide)) rfl
      hasOutput := hparam (Operand.before_param 0 (by decide)) rfl
      hasLength := hparam (Operand.before_param 0 (by decide)) rfl }
  obtain ⟨f, hf, hpres, hstage, hcounter⟩ := exec_restart native (eval_zero k f₂)
    (type_zero k) hbound j.arrays_withSlots j.accessible_accSlot
  refine ⟨f, ?_, hpres.calls, hbound.preserved hpres, hcounter, hstage⟩
  have hcode : (helperDefinition k).code = helperSlots k ++ (resetCode k ++
      (loopCode sumLabels counter 2 (sumCode k) ++ secondHalf k)) := by
    simp [helperDefinition, Llvm.Definition.code, helperCode, secondHalf, returnCode]
  have henter : (helperDefinition k).enter j.args j.memory =
      .running (helperSlots k ++ (resetCode k ++
        (loopCode sumLabels counter 2 (sumCode k) ++ secondHalf k))) f₀ :=
    congrArg (Llvm.Config.running · f₀) hcode
  rw [henter]
  exact (Reaches.of_execAll hslots).trans (Reaches.of_execAll hf)

/-- Between the loops the sum of all numbers goes to the scan, whose answer is the new
base. -/
theorem scan_runs {whole rest : List Instr} {c : Int} (hf : j.Bound f)
    (hm : j.Stage 0 0 j.values.length f.memory)
    (hscan : native (scanSymbol k) [.word (k.type.wrap j.values.sum)] = some (.word c)) :
    ∃ g, Reaches native whole (.running (scanCode k ++ rest) f) (.running rest g) ∧
      g.calls = f.calls ++ [(scanSymbol k, [.word (k.type.wrap j.values.sum)])] ∧
      j.AtHead (fun i => j.Stage c i i) 0 g := by
  have htotal : f.memory.load k.type j.accSlot = some (k.type.wrap j.values.sum) := by
    rw [hm.acc, running, List.take_length, Int.zero_add]
  let f₁ := f.set 9 (.word (k.type.wrap j.values.sum))
  let f₂ : Frame := ({ f₁ with calls := f₁.calls ++ [(scanSymbol k,
    [.word (k.type.wrap j.values.sum)])] } : Frame).set 10 (.word c)
  have hload : f.exec native (.load 9 k.type acc) = some f₁ :=
    Frame.exec_load hf.hasAcc.eval htotal
  have hcall : f₁.exec native ((EntryPoint.exclusiveScan k).call 10 [.register k.type 9]) =
      some f₂ := by
    have harg : f₁.eval (.register k.type 9) = some (.word (k.type.wrap j.values.sum)) :=
      Frame.eval_set_self
    exact Frame.exec_call (by simp [harg]) hscan
  have hext : f.Extends 2 f₂ :=
    ((Frame.Extends.refl 2 f).set (by decide)).call (by decide) _
  have hbound : j.Bound f₂ := hf.of_eval hext.eval
  have hanswer : f₂.eval (.register k.type 10) = some (.word c) := Frame.eval_set_self
  obtain ⟨g, hg, hpres, hstage, hcounter⟩ := exec_restart native hanswer rfl hbound hm.toArrays
    (Memory.load_eq_some.mp htotal).2.1
  refine ⟨g, ?_, hpres.calls, hbound.preserved hpres, hcounter, hstage⟩
  have hcode : Frame.execAll native (scanCode k) f = some g := by
    rw [scanCode, Frame.execAll_cons hload, Frame.execAll_cons hcall]
    exact hg
  exact Reaches.of_execAll hcode

/-- The helper returns zero. It has called the scan once, with the sum of all numbers, and
written the running sums on top of its answer; no other byte has changed, and its slots
are the only new objects. -/
theorem helper_runs (hint : k.type.isInt) (j : Job k) {c : Int}
    (hscan : native (scanSymbol k) [.word (k.type.wrap j.values.sum)] = some (.word c)) :
    ∃ f, Reaches native (helperDefinition k).code ((helperDefinition k).enter j.args j.memory)
        (.returned (some (.word 0)) f) ∧
      f.calls = [(scanSymbol k, [.word (k.type.wrap j.values.sum)])] ∧
      f.memory.Holds k.type j.target
        ((prefixSums j.values).map fun total => k.type.wrap (c + total)) ∧
      Memory.Agree (Memory.arrayBytes k.type j.target j.values.length) j.memory f.memory ∧
      f.memory.count = j.memory.count + 2 := by
  obtain ⟨f₁, hrun₁, hcalls₁, hhead₁⟩ := j.start_runs native
  obtain ⟨f₂, hrun₂, hpres₂, hbound₂, hstage₂⟩ :=
    loop_runs (placed_sum k) (Nat.le_refl 2) (iterates_sum hint) hhead₁
  obtain ⟨f₃, hrun₃, hcalls₃, hhead₃⟩ := scan_runs hbound₂ hstage₂ hscan
  obtain ⟨f, hrun₄, hpres₄, -, hstage⟩ :=
    loop_runs (placed_write k) (show 2 ≤ 11 by decide) (iterates_write hint) hhead₃
  have hreturn : Reaches native (helperDefinition k).code (.running returnCode f)
      (.returned (some (.word 0)) f) := Reaches.ret rfl
  refine ⟨f, hrun₁.trans (hrun₂.trans (hrun₃.trans (hrun₄.trans hreturn))), ?_, ?_, hstage.agree,
    hstage.count⟩
  · rw [hpres₄.calls, hcalls₃, hpres₂.calls, hcalls₁, List.nil_append]
  · intro i x hx
    rw [prefixSums, List.map_map, List.getElem?_map] at hx
    obtain ⟨l, hl, rfl⟩ := Option.map_eq_some_iff.mp hx
    have hlt : i < j.values.length := by simpa using (List.getElem?_eq_some_iff.mp hl).1
    rw [List.getElem?_range hlt] at hl
    cases hl
    exact hstage.target i hlt

end Job

end SpmdArrays.Lowering.CumulativeSum
