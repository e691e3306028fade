import SpmdArrays.Proofs.Lowering.Emission

/-!
The code of the helper for cumulative sums, in closed form. A counted loop keeps its
counter in a slot: it is read and compared at the head of the loop and written back
behind the body. The helper has two such loops that share their slots, and the call of
the scan between them.
-/

namespace SpmdArrays.Llvm.Session

def labelling (s : Session) (n : Nat) : Session :=
  { s with draft.nextLabel := s.draft.nextLabel + n }

theorem newLabel_eq {ε : Type} (hint : String) (s : Session) :
    (Emit.newLabel hint : Emit ε String) s =
      .ok (hint ++ toString s.draft.nextLabel) (s.labelling 1) := rfl

theorem label_eq {ε : Type} (name : String) (s : Session) :
    (Emit.label name : Emit ε Unit) s = .ok () (s.adding [] [.label name]) := Emit.run_eq rfl s

theorem br_eq {ε : Type} (target : String) (s : Session) :
    (Emit.br target : Emit ε Unit) s = .ok () (s.adding [] [.br target]) := Emit.run_eq rfl s

theorem condBr_eq {ε : Type} (cond : Operand) (ifTrue ifFalse : String) (s : Session) :
    (Emit.condBr cond ifTrue ifFalse : Emit ε Unit) s =
      .ok () (s.adding [] [.condBr cond ifTrue ifFalse]) := Emit.run_eq rfl s

theorem ret_eq {ε : Type} (value : Option Operand) (s : Session) :
    (Emit.ret value : Emit ε Unit) s = .ok () (s.adding [] [.ret value]) := Emit.run_eq rfl s

@[simp] theorem labelling_nextRegister (s : Session) (n : Nat) :
    (s.labelling n).draft.nextRegister = s.draft.nextRegister := rfl

@[simp] theorem labelling_nextLabel (s : Session) (n : Nat) :
    (s.labelling n).draft.nextLabel = s.draft.nextLabel + n := rfl

@[simp] theorem labelling_labelling (s : Session) (n n' : Nat) :
    (s.labelling n).labelling n' = s.labelling (n + n') := by
  simp [labelling, Nat.add_assoc]

@[simp] theorem adding_nextLabel (s : Session) (slots body : List Instr) :
    (s.adding slots body).draft.nextLabel = s.draft.nextLabel := rfl

@[simp] theorem adding_labelling (s : Session) (slots body : List Instr) (n : Nat) :
    (s.adding slots body).labelling n = (s.labelling n).adding slots body := rfl

end SpmdArrays.Llvm.Session

namespace SpmdArrays.Lowering.CumulativeSum

open Llvm (Ty Operand Instr Signature Session Emit Draft Definition Module)

/-! ### Loops -/

structure LoopLabels where
  cond : String
  step : String
  done : String

def loopLabels (hint : String) (l : Nat) : LoopLabels where
  cond := hint ++ ".cond" ++ toString l
  step := hint ++ ".body" ++ toString (l + 1)
  done := hint ++ ".end" ++ toString (l + 2)

/-- What a loop does at its head: it reads the counter into register `n` and goes on to
the body or behind the loop. -/
def testCode (labels : LoopLabels) (counter : Operand) (n : Nat) : List Instr :=
  [.load n .i64 counter, .icmp (n + 1) "slt" (.register .i64 n) length,
    .condBr (.register .i1 (n + 1)) labels.step labels.done]

/-- What a loop does behind its body: it writes the next value of the counter, by way of
register `next`, and goes back to its head. -/
def advanceCode (labels : LoopLabels) (counter : Operand) (n next : Nat) : List Instr :=
  [.binary next .add (.register .i64 n) (.i64 1), .store (.register .i64 next) counter,
    .br labels.cond]

/-- The code of a counted loop whose counter is read into register `n`. -/
def loopCode (labels : LoopLabels) (counter : Operand) (n : Nat) (body : List Instr) : List Instr :=
  .br labels.cond :: .label labels.cond :: testCode labels counter n ++ .label labels.step ::
    body ++ advanceCode labels counter n (n + ((Llvm.defined body).length + 2)) ++
    [.label labels.done]

theorem countedLoop_eq {hint : String} {counter : Operand} {body : Operand → Emit Llvm.Error Unit}
    {s : Session} {n l : Nat} {code : List Instr} (hn : s.draft.nextRegister = n)
    (hl : s.draft.nextLabel = l)
    (hbody : ∀ u : Session, u.draft.nextRegister = n + 2 →
      body (.register .i64 n) u = .ok () (u.adding [] code)) :
    countedLoop hint counter body s =
      .ok () ((s.labelling 3).adding [] (loopCode (loopLabels hint l) counter n code)) := by
  subst hn hl
  rw [countedLoop, Emit.bind_of_ok (Session.newLabel_eq ..),
    Emit.bind_of_ok (Session.newLabel_eq ..), Emit.bind_of_ok (Session.newLabel_eq ..),
    Emit.bind_of_ok (Session.br_eq ..), Emit.bind_of_ok (Session.label_eq ..),
    Emit.bind_of_ok (Emit.load_eq ..), Emit.bind_of_ok (Emit.icmp_eq ..),
    Emit.bind_of_ok (Session.condBr_eq ..), Emit.bind_of_ok (Session.label_eq ..)]
  simp only [Session.labelling_labelling, Session.labelling_nextRegister,
    Session.adding_nextRegister, List.nil_append, Llvm.defined_cons, Llvm.defined_nil,
    Llvm.Instr.dst?, Option.toList_none, List.length_nil, Nat.add_zero]
  rw [Emit.bind_of_ok (hbody _ (by simp [Llvm.Instr.dst?])), Emit.bind_of_ok (Emit.add_eq ..),
    Emit.bind_of_ok (Emit.store_eq ..), Emit.bind_of_ok (Session.br_eq ..), Session.label_eq]
  simp [loopCode, testCode, advanceCode, loopLabels, Llvm.Instr.dst?, Operand.register,
    Llvm.BinaryOp.addOf, Ty.isFloat, Nat.add_assoc]

def accumulateCode (elem : Ty) (acc : Operand) (i n : Nat) : List Instr :=
  [.gep n elem input [.register .i64 i], .load (n + 1) elem (.register .ptr n),
    .load (n + 2) elem acc,
    .binary (n + 3) (.addOf elem) (.register elem (n + 2)) (.register elem (n + 1)),
    .store (.register elem (n + 3)) acc]

theorem accumulate_eq (elem : Ty) (acc : Operand) (i : Nat) (s : Session) :
    accumulate elem acc (.register .i64 i) s =
      .ok (.register elem (s.draft.nextRegister + 3))
        (s.adding [] (accumulateCode elem acc i s.draft.nextRegister)) := by
  rw [accumulate, Emit.bind_of_ok (Emit.gep_eq ..), Emit.bind_of_ok (Emit.load_eq ..),
    Emit.bind_of_ok (Emit.load_eq ..), Emit.bind_of_ok (Emit.add_eq ..),
    Emit.bind_of_ok (Emit.store_eq ..), Emit.pure_apply]
  simp [accumulateCode, Llvm.Instr.dst?, Operand.register]

/-! ### The helper -/

def acc : Operand := .register .ptr 0

/-- The slot of the counter, which both loops use. -/
def counter : Operand := .register .ptr 1

def sumLabels : LoopLabels := loopLabels "sum" 0

def writeLabels : LoopLabels := loopLabels "write" 3

def sumCode (k : ScalarKind) : List Instr := accumulateCode k.type acc 2 4

def writeCode (k : ScalarKind) : List Instr :=
  accumulateCode k.type acc 11 13 ++
    [.gep 17 k.type output [.register .i64 11], .store (.register k.type 16) (.register .ptr 17)]

def scanCode (k : ScalarKind) : List Instr :=
  [.load 9 k.type acc, (EntryPoint.exclusiveScan k).call 10 [.register k.type 9],
    .store (.register k.type 10) acc, .store (.i64 0) counter]

def helperSlots (k : ScalarKind) : List Instr := [.alloca 0 k.type, .alloca 1 .i64]

def resetCode (k : ScalarKind) : List Instr := [.store (.zero k.type) acc, .store (.i64 0) counter]

theorem type_zero (k : ScalarKind) : (Operand.zero k.type).type = k.type := by
  cases k <;> rfl

def helperCode (k : ScalarKind) : List Instr :=
  resetCode k ++ loopCode sumLabels counter 2 (sumCode k) ++ scanCode k ++
    loopCode writeLabels counter 11 (writeCode k) ++ [.ret (some (.i32 0))]

/-- The helper as it stands in a module. -/
def helperDefinition (k : ScalarKind) : Definition :=
  { (helperDraft k).definition with
    slots := (helperSlots k).toArray
    body := (helperCode k).toArray }

abbrev scanSymbol (k : ScalarKind) : String := (EntryPoint.exclusiveScan k).symbol

abbrev scanSignature (k : ScalarKind) : Signature := (EntryPoint.exclusiveScan k).signature

def completeDraft (k : ScalarKind) : Draft where
  definition := helperDefinition k
  nextRegister := 19
  nextLabel := 6

/-- The session of a helper that is written up to some place of its code. -/
def written (k : ScalarKind) (m : Module) (labels : Nat) (code : List Instr) : Session :=
  ((⟨m, helperDraft k⟩ : Session).labelling labels).adding (helperSlots k) code

theorem adding_written (k : ScalarKind) (m : Module) (labels : Nat) (code code' : List Instr) :
    (written k m labels code).adding [] code' = written k m labels (code ++ code') := by
  simp [written]

theorem on_written (k : ScalarKind) (m m' : Module) (labels : Nat) (code : List Instr) :
    (written k m labels code).on m' = written k m' labels code := rfl

theorem labelling_written (k : ScalarKind) (m : Module) (labels n : Nat) (code : List Instr) :
    (written k m labels code).labelling n = written k m (labels + n) code := by
  simp [written]

theorem nextRegister_written {k : ScalarKind} {m : Module} {labels n : Nat} {code : List Instr}
    (h : (Llvm.defined code).length + 2 = n) :
    (written k m labels code).draft.nextRegister = n := by
  simp [written, helperSlots, helperDraft, Draft.start, Llvm.Instr.dst?, h]

theorem nextLabel_written {k : ScalarKind} {m : Module} {labels : Nat} {code : List Instr} :
    (written k m labels code).draft.nextLabel = labels := by
  simp [written, helperDraft, Draft.start]

theorem written_helperCode (k : ScalarKind) (m : Module) :
    written k m 6 (helperCode k) = ⟨m, completeDraft k⟩ := by
  simp [written, Session.labelling, Session.adding, completeDraft, helperDefinition, helperDraft,
    Draft.start]
  rfl

theorem loop_written {k : ScalarKind} {m : Module} {labels n : Nat} {before code : List Instr}
    {hint : String} {body : Operand → Emit Llvm.Error Unit}
    (h : (Llvm.defined before).length + 2 = n)
    (hbody : ∀ u : Session, u.draft.nextRegister = n + 2 →
      body (.register .i64 n) u = .ok () (u.adding [] code)) :
    countedLoop hint counter body (written k m labels before) =
      .ok () (written k m (labels + 3)
        (before ++ loopCode (loopLabels hint labels) counter n code)) := by
  rw [countedLoop_eq (nextRegister_written h) nextLabel_written hbody, labelling_written,
    adding_written]

theorem call_written {k : ScalarKind} {m : Module} {labels n : Nat} {before : List Instr}
    (h : (Llvm.defined before).length + 2 = n) (args : List Operand) :
    Emit.call (scanSymbol k) (scanSignature k) args (written k m labels before) =
      match m.declare (scanSymbol k) (scanSignature k) with
      | .ok m' => .ok (.register k.type n)
          (written k m' labels (before ++ [(EntryPoint.exclusiveScan k).call n args]))
      | .error e => .error e (written k m labels before) := by
  have hm : (written k m labels before).module = m := rfl
  rw [Emit.call_eq (EntryPoint.ret_ne_void _), hm, nextRegister_written h]
  cases m.declare (scanSymbol k) (scanSignature k) with
  | error e => rfl
  | ok m' =>
      dsimp only
      rw [on_written, adding_written]
      rfl

def upToScan (k : ScalarKind) : List Instr :=
  resetCode k ++ loopCode sumLabels counter 2 (sumCode k) ++ [.load 9 k.type acc]

/-- The helper is closed with its code complete, unless the scan is declared otherwise. -/
theorem helperBody_eq (k : ScalarKind) (m : Module) :
    helperBody k ⟨m, helperDraft k⟩ =
      match m.declare (scanSymbol k) (scanSignature k) with
      | .ok m' => Emit.finish ⟨m', completeDraft k⟩
      | .error e => .error e (written k m 3 (upToScan k)) := by
  have hacc : (Emit.alloca k.type : Emit Llvm.Error Operand) ⟨m, helperDraft k⟩ =
      .ok acc ((⟨m, helperDraft k⟩ : Session).adding [.alloca 0 k.type] []) := Emit.alloca_eq ..
  have hcounter : (Emit.alloca .i64 : Emit Llvm.Error Operand)
      ((⟨m, helperDraft k⟩ : Session).adding [.alloca 0 k.type] []) =
        .ok counter (written k m 0 []) := Emit.alloca_eq ..
  have hsum : ∀ before, (Llvm.defined before).length + 2 = 2 →
      countedLoop "sum" counter (fun i => do let _ ← accumulate k.type acc i)
        (written k m 0 before) =
      .ok () (written k m 3 (before ++ loopCode sumLabels counter 2 (sumCode k))) := by
    refine fun before hn => loop_written hn fun u hu => ?_
    rw [Emit.bind_of_ok (accumulate_eq ..), hu]
    rfl
  have hfirst : ∀ before, (Llvm.defined before).length + 2 = 9 →
      (Emit.load k.type acc : Emit Llvm.Error Operand) (written k m 3 before) =
        .ok (.register k.type 9) (written k m 3 (before ++ [.load 9 k.type acc])) := by
    intro before hn
    rw [Emit.load_eq, nextRegister_written hn, adding_written]
  have hwrite : ∀ m' before, (Llvm.defined before).length + 2 = 11 →
      countedLoop "write" counter (fun i => do
        let sum ← accumulate k.type acc i
        let q ← Emit.gep k.type output [i]
        Emit.store sum q) (written k m' 3 before) =
      .ok () (written k m' 6 (before ++ loopCode writeLabels counter 11 (writeCode k))) := by
    refine fun m' before hn => loop_written hn fun u hu => ?_
    rw [Emit.bind_of_ok (accumulate_eq ..), Emit.bind_of_ok (Emit.gep_eq ..), Emit.store_eq]
    simp [writeCode, accumulateCode, hu, Llvm.Instr.dst?]
  rw [helperBody, Emit.bind_of_ok hacc, Emit.bind_of_ok hcounter,
    Emit.bind_of_ok (Emit.store_eq ..), adding_written, Emit.bind_of_ok (Emit.store_eq ..),
    adding_written, Emit.bind_of_ok (hsum _ ?_), Emit.bind_of_ok (hfirst _ ?_), Emit.bind_apply,
    call_written (n := 10) ?_]
  · cases m.declare (scanSymbol k) (scanSignature k) with
    | error e => rfl
    | ok m' =>
        dsimp only
        rw [Emit.bind_of_ok (Emit.store_eq ..), adding_written, Emit.bind_of_ok (Emit.store_eq ..),
          adding_written, Emit.bind_of_ok (hwrite _ _ ?_), Emit.bind_of_ok (Session.ret_eq ..),
          adding_written, ← written_helperCode]
        · simp [helperCode, scanCode, resetCode]
        · rfl
  all_goals rfl

/-- The session has the helper: its name was defined, or the helper has been added to
the module behind the scan. -/
theorem ensureHelper_eq_ok {k : ScalarKind} {s t : Session} {name : String}
    (h : ensureHelper k s = .ok name t) :
    name = helperName k ∧
      ((s.module.isDefined (helperName k) ∧ t = s) ∨
        ∃ m m', s.module.declare (scanSymbol k) (scanSignature k) = .ok m ∧
          m.declare (helperName k) helperSignature = .ok m' ∧
          t = s.on { m' with definitions := m'.definitions.push (helperDefinition k) }) := by
  unfold ensureHelper at h
  split at h
  · rename_i hdefined
    cases h
    exact ⟨rfl, .inl ⟨hdefined, rfl⟩⟩
  · rw [helperBody_eq] at h
    cases hm : s.module.declare (scanSymbol k) (scanSignature k) with
    | error e =>
        rw [hm] at h
        cases h
    | ok m =>
        rw [hm] at h
        cases hfinish : Emit.finish ⟨m, completeDraft k⟩ with
        | error e u =>
            simp [hfinish] at h
        | ok _ u =>
            simp only [hfinish] at h
            cases h
            obtain ⟨m', hm', -, rfl⟩ := Emit.finish_eq_ok hfinish
            exact ⟨rfl, .inr ⟨m, m', rfl, hm', rfl⟩⟩

end SpmdArrays.Lowering.CumulativeSum
