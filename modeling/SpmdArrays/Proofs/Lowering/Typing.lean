import SpmdArrays.Proofs.Llvm.Typing
import SpmdArrays.Proofs.Lowering.HelperCode

/-!
Lowered code is well typed. The emitters check no operand; that the code fits together
rests on the checks in front of it. Each piece of code is typed here in any scope that
has its operands, and a primitive is typed in the scope of its own operands alone, so it
reads nothing else but what its own instructions have defined.
-/

namespace SpmdArrays.Lowering

open Llvm (Ty Operand Instr Signature Session Emit Module Definition Scope Checked Numbered)

def IsIndex (Γ : Scope) (o : Operand) : Prop := Γ.Reads o ∧ o.type = .i64

theorem IsIndex.within {Γ Δ : Scope} {o : Operand} (ho : IsIndex Γ o) (h : Γ.Within Δ) :
    IsIndex Δ o :=
  ⟨h.reads ho.1, ho.2⟩

theorem isIndex_i64 (Γ : Scope) (v : Int) : IsIndex Γ (.i64 v) := ⟨.inl rfl, rfl⟩

theorem isIndex_register (Γ : Scope) (n : Nat) : IsIndex (Γ.value .i64 n) (.register .i64 n) :=
  ⟨Scope.reads_value, rfl⟩

/-! ### Pieces of code -/

section

variable (m : Module) (ret : Ty)

namespace Lower

theorem binary_typed {Γ : Scope} {n : Nat} {lhs rhs : Operand} {op : Llvm.BinaryOp}
    (hop : op.On .i64) (hl : IsIndex Γ lhs) (hr : IsIndex Γ rhs) :
    (Instr.binary n op lhs rhs).Typed m ret Γ (Γ.value .i64 n) := by
  rw [← hl.2] at hop ⊢
  exact .binary hop (hl.2.trans hr.2.symm) hl.1 hr.1

theorem offsetCode_checked {Γ : Scope} (n : Nat) {first : Operand}
    {pairs : List (Operand × Operand)} (hfirst : IsIndex Γ first)
    (hpairs : ∀ p ∈ pairs, IsIndex Γ p.1 ∧ IsIndex Γ p.2) :
    ∃ Δ, Checked m ret Γ (offsetCode n first pairs) Δ ∧ IsIndex Δ (offsetValue n first pairs) := by
  induction pairs generalizing Γ n first with
  | nil => exact ⟨Γ, .nil, hfirst⟩
  | cons p rest ih =>
      obtain ⟨index, extent⟩ := p
      obtain ⟨hindex, hextent⟩ := hpairs _ (List.mem_cons_self ..)
      have hw : Γ.Within ((Γ.value .i64 n).value .i64 (n + 1)) :=
        Scope.within_value.trans Scope.within_value
      obtain ⟨Δ, hΔ, hvalue⟩ := ih (n + 2) (isIndex_register (Γ.value .i64 n) (n + 1))
        fun q hq => (hpairs q (.tail _ hq)).imp (·.within hw) (·.within hw)
      have hmul : (Instr.binary n .mul first extent).Typed m ret Γ (Γ.value .i64 n) :=
        binary_typed m ret rfl hfirst hextent
      have hadd : (Instr.binary (n + 1) .add (.register .i64 n) index).Typed m ret
          (Γ.value .i64 n) ((Γ.value .i64 n).value .i64 (n + 1)) :=
        binary_typed m ret rfl (isIndex_register Γ n) (hindex.within Scope.within_value)
      refine ⟨Δ, ?_, ?_⟩
      · simp only [offsetCode, hfirst.2]
        exact .cons hmul (.cons hadd hΔ)
      · simpa only [offsetValue, hfirst.2] using hvalue

theorem countCode_checked {Γ : Scope} (n : Nat) {start : Operand} {extents : List Operand}
    (hstart : IsIndex Γ start) (hextents : ∀ d ∈ extents, IsIndex Γ d) :
    ∃ Δ, Checked m ret Γ (countCode n start extents) Δ ∧
      IsIndex Δ (countValue n start extents) := by
  induction extents generalizing Γ n start with
  | nil => exact ⟨Γ, .nil, hstart⟩
  | cons extent rest ih =>
      obtain ⟨Δ, hΔ, hvalue⟩ := ih (n + 1) (isIndex_register Γ n)
        fun d hd => (hextents d (.tail _ hd)).within Scope.within_value
      have hmul : (Instr.binary n .mul start extent).Typed m ret Γ (Γ.value .i64 n) :=
        binary_typed m ret rfl hstart (hextents _ (List.mem_cons_self ..))
      refine ⟨Δ, ?_, ?_⟩
      · simp only [countCode, hstart.2]
        exact .cons hmul hΔ
      · simpa only [countValue, hstart.2] using hvalue

theorem extentCode_checked {Γ : Scope} (n : Nat) {length i : Nat} {slot : Operand}
    {extents : List Operand} (hslot : Γ.PointsTo slot (.array length .i64))
    (hextents : ∀ d ∈ extents, IsIndex Γ d) (hlength : i + extents.length ≤ length) :
    ∃ Δ, Checked m ret Γ (extentCode (.array length .i64) slot n i extents) Δ := by
  induction extents generalizing Γ n i with
  | nil => exact ⟨Γ, .nil⟩
  | cons extent rest ih =>
      rw [List.length_cons] at hlength
      have hw : Γ.Within (Γ.address .i64 n) := Scope.within_address
      obtain ⟨hread, htype⟩ := (hextents extent (List.mem_cons_self ..)).within hw
      obtain ⟨Δ, hΔ⟩ := ih (n + 1) (i := i + 1) (hw.pointsTo hslot)
        (fun d hd => (hextents d (.tail _ hd)).within hw) (by omega)
      have hcell : (Γ.address .i64 n).PointsTo (.register .ptr n) extent.type :=
        htype ▸ Scope.pointsTo_address
      exact ⟨Δ, .cons (.component hslot (by omega)) (.cons (.store hread hcell) hΔ)⟩

/-- What an element's address is computed from is in scope. -/
structure Ready (Γ : Scope) (a : ArrayOperand) (first : Operand) (rest : List Operand) : Prop where
  data : Γ.PointsTo a.data a.elemType
  first : IsIndex Γ first
  rest : ∀ i ∈ rest, IsIndex Γ i
  shape : ∀ d ∈ a.shape, IsIndex Γ d

theorem Ready.within {Γ Δ : Scope} {a : ArrayOperand} {first : Operand} {rest : List Operand}
    (h : Ready Γ a first rest) (hw : Γ.Within Δ) : Ready Δ a first rest where
  data := hw.pointsTo h.data
  first := h.first.within hw
  rest i hi := (h.rest i hi).within hw
  shape d hd := (h.shape d hd).within hw

theorem Ready.dimensions {Γ : Scope} {a : ArrayOperand} {first : Operand} {rest : List Operand}
    (h : Ready Γ a first rest) : ∀ p ∈ Lower.dimensions a rest, IsIndex Γ p.1 ∧ IsIndex Γ p.2 := by
  intro p hp
  obtain ⟨hindex, hextent⟩ := List.of_mem_zip (a := p.1) (b := p.2) hp
  exact ⟨h.rest _ hindex, h.shape _ (List.mem_of_mem_tail hextent)⟩

theorem ownCode_checked {Γ : Scope} (n : Nat) {a : ArrayOperand} {first : Operand}
    {rest : List Operand} (h : Ready Γ a first rest) :
    ∃ Δ, Checked m ret Γ (ownCode n a first rest) Δ ∧
      Δ.PointsTo (.register .ptr (n + 2 * (dimensions a rest).length)) a.elemType := by
  obtain ⟨Δ, hΔ, hread, htype⟩ := offsetCode_checked m ret n h.first h.dimensions
  exact ⟨_, hΔ.append (.single (.element (hΔ.within.pointsTo h.data) hread htype)),
    Scope.pointsTo_address⟩

theorem distributedCode_checked {Γ : Scope} (n : Nat) {a : ArrayOperand}
    {first start count : Operand}
    {rest : List Operand} (h : Ready Γ a first rest) (hstart : IsIndex Γ start)
    (hcount : IsIndex Γ count)
    (hitem : m.signature? EntryPoint.itemPointer.symbol = some EntryPoint.itemPointer.signature)
    (hdummy : m.signature? EntryPoint.dummyPointer.symbol =
      some EntryPoint.dummyPointer.signature) :
    ∃ Δ, Checked m ret Γ (distributedCode n a first rest start count) Δ ∧
      Δ.PointsTo (.register .ptr (n + 2 * (dimensions a rest).length + 4)) a.elemType := by
  have hcall : (EntryPoint.itemPointer.call n [first, start, count]).Typed m ret Γ
      (Γ.value .i64 n) := by
    refine .call hitem (EntryPoint.ret_ne_void _) ?_ ?_
    · simp [h.first.2, hstart.2, hcount.2, EntryPoint.signature]
    · simp [h.first.1, hstart.1, hcount.1]
  have hrow := isIndex_register Γ n
  obtain ⟨Δ, hΔ, hptr⟩ := ownCode_checked m ret (n + 1)
    { h.within Scope.within_value with first := hrow }
  have hptr : Δ.PointsTo (.register .ptr (n + 2 * (dimensions a rest).length + 1)) a.elemType := by
    simpa only [Nat.add_right_comm] using hptr
  refine ⟨_, .cons hcall (hΔ.append (.cons (.icmp (by simp) rfl rfl (hΔ.within.reads hrow.1)
    (isIndex_i64 Δ (-1)).1) (.cons (.callAddress a.elemType hdummy rfl rfl (by simp)) (.single
      (.selectAddress (Scope.within_address.reads Scope.reads_value) rfl Scope.pointsTo_address
        (Scope.within_address.pointsTo (Scope.within_value.pointsTo hptr))))))), ?_⟩
  exact Scope.pointsTo_address

end Lower

namespace CumulativeSum

def inBody (Γ : Scope) (n : Nat) : Scope := (Γ.value .i64 n).value .i1 (n + 1)

theorem within_inBody {Γ : Scope} {n : Nat} : Γ.Within (inBody Γ n) :=
  Scope.within_value.trans Scope.within_value

theorem isIndex_inBody (Γ : Scope) (n : Nat) : IsIndex (inBody Γ n) (.register .i64 n) :=
  (isIndex_register Γ n).within Scope.within_value

theorem loopCode_checked {Γ : Scope} (labels : LoopLabels) {counter : Operand} (n : Nat)
    {body : List Instr} (hcounter : Γ.PointsTo counter .i64) (hlength : IsIndex Γ length)
    (hbody : ∃ Δ, Checked m ret (inBody Γ n) body Δ) :
    ∃ Δ, Checked m ret Γ (loopCode labels counter n body) Δ := by
  obtain ⟨Δ, hΔ⟩ := hbody
  have htest : Checked m ret Γ (testCode labels counter n) (inBody Γ n) :=
    .cons (.load hcounter) (.cons (.icmp (by simp) rfl rfl Scope.reads_value
      (hlength.within Scope.within_value).1) (.single (.condBr Scope.reads_value rfl)))
  have hadvance : ∀ next, Checked m ret Δ (advanceCode labels counter n next) (Δ.value .i64 next) :=
    fun next => .cons (Lower.binary_typed m ret rfl ((isIndex_inBody Γ n).within hΔ.within)
      (isIndex_i64 Δ 1)) (.cons (.store Scope.reads_value (Scope.within_value.pointsTo
        (hΔ.within.pointsTo (within_inBody.pointsTo hcounter)))) (.single .br))
  exact ⟨_, .cons .br (.cons .label (((htest.append (.cons .label hΔ)).append
    (hadvance _)).append (.single .label)))⟩

theorem accumulateCode_checked {Γ : Scope} {elem : Ty} {acc : Operand} {i : Nat} (n : Nat)
    (hin : Γ.PointsTo input elem) (hacc : Γ.PointsTo acc elem)
    (hi : IsIndex Γ (.register .i64 i)) (hadd : (Llvm.BinaryOp.addOf elem).On elem) :
    ∃ Δ, Checked m ret Γ (accumulateCode elem acc i n) Δ ∧ Δ.Reads (.register elem (n + 3)) := by
  have hw : ∀ {Δ : Scope}, Δ.Within ((Δ.address elem n).value elem (n + 1)) :=
    Scope.within_address.trans Scope.within_value
  exact ⟨_, .cons (.element hin hi.1 hi.2) (.cons (.load Scope.pointsTo_address)
    (.cons (.load (hw.pointsTo hacc)) (.cons (.binary hadd rfl Scope.reads_value
      (Scope.within_value.reads Scope.reads_value)) (.single (.store Scope.reads_value
        (Scope.within_value.pointsTo (Scope.within_value.pointsTo (hw.pointsTo hacc)))))))),
    Scope.reads_value⟩

structure Prepared (k : ScalarKind) (Γ : Scope) : Prop where
  input : Γ.PointsTo input k.type
  output : Γ.PointsTo output k.type
  length : IsIndex Γ length
  acc : Γ.PointsTo acc k.type
  counter : Γ.PointsTo counter .i64

theorem Prepared.within {k : ScalarKind} {Γ Δ : Scope} (h : Prepared k Γ) (hw : Γ.Within Δ) :
    Prepared k Δ where
  input := hw.pointsTo h.input
  output := hw.pointsTo h.output
  length := h.length.within hw
  acc := hw.pointsTo h.acc
  counter := hw.pointsTo h.counter

theorem addOf_on (k : ScalarKind) : (Llvm.BinaryOp.addOf k.type).On k.type := by
  cases k <;> rfl

variable {k : ScalarKind} {Γ : Scope}

theorem resetCode_checked (h : Prepared k Γ) : Checked m ret Γ (resetCode k) Γ := by
  have hnumber : k.type.isInt ∨ k.type.isFloat := by
    cases k <;> simp [ScalarKind.type, Ty.isInt, Ty.isFloat]
  have hzero : Γ.Reads (.zero k.type) := .inl (Operand.isConstant_zero _ hnumber)
  have hcell : Γ.PointsTo acc (Operand.zero k.type).type := (type_zero k).symm ▸ h.acc
  exact .cons (.store hzero hcell) (.single (.store (isIndex_i64 Γ 0).1 h.counter))

theorem sumLoop_checked (h : Prepared k Γ) :
    ∃ Δ, Checked m ret Γ (loopCode sumLabels counter 2 (sumCode k)) Δ := by
  have hbody : Prepared k (inBody Γ 2) := h.within within_inBody
  obtain ⟨Δ, hΔ, -⟩ := accumulateCode_checked m ret 4 hbody.input hbody.acc
    (isIndex_inBody Γ 2) (addOf_on k)
  exact loopCode_checked m ret sumLabels 2 h.counter h.length ⟨Δ, hΔ⟩

theorem writeLoop_checked (h : Prepared k Γ) :
    ∃ Δ, Checked m ret Γ (loopCode writeLabels counter 11 (writeCode k)) Δ := by
  have hbody : Prepared k (inBody Γ 11) := h.within within_inBody
  obtain ⟨Δ, hΔ, hsum⟩ := accumulateCode_checked m ret 13 hbody.input hbody.acc
    (isIndex_inBody Γ 11) (addOf_on k)
  have hi := (isIndex_inBody Γ 11).within hΔ.within
  exact loopCode_checked m ret writeLabels 11 h.counter h.length ⟨_, hΔ.append
    (.cons (.element (hbody.within hΔ.within).output hi.1 hi.2) (.single
      (.store (Scope.within_address.reads hsum) Scope.pointsTo_address)))⟩

theorem scanCode_checked (h : Prepared k Γ)
    (hscan : m.signature? (scanSymbol k) = some (scanSignature k)) :
    ∃ Δ, Checked m ret Γ (scanCode k) Δ := by
  have hw : Γ.Within ((Γ.value k.type 9).value k.type 10) :=
    Scope.within_value.trans Scope.within_value
  have hcall : ((EntryPoint.exclusiveScan k).call 10 [.register k.type 9]).Typed m ret
      (Γ.value k.type 9) ((Γ.value k.type 9).value k.type 10) :=
    .call hscan (EntryPoint.ret_ne_void _) rfl (by simp [Scope.reads_value])
  exact ⟨_, .cons (.load h.acc) (.cons hcall (.cons (.store Scope.reads_value (h.within hw).acc)
    (.single (.store (isIndex_i64 _ 0).1 (h.within hw).counter))))⟩

def helperCells (k : ScalarKind) : List (Operand × Ty) := [(input, k.type), (output, k.type)]

theorem helperDefinition_typed (hscan : m.signature? (scanSymbol k) = some (scanSignature k)) :
    (helperDefinition k).Typed m (helperCells k) := by
  refine ⟨rfl, ?_⟩
  let start : Scope := ⟨(helperDefinition k).params, helperCells k⟩
  let Γ := (start.address k.type 0).address .i64 1
  have hslots : Checked m .i32 start (helperSlots k) Γ := .cons .alloca (.single .alloca)
  have hparams : ∀ o, o ∈ [input, output, length] → o ∈ Γ.values :=
    fun o ho => .tail _ (.tail _ ho)
  have hcells : helperCells k ⊆ Γ.cells := fun c hc => .tail _ (.tail _ hc)
  have hΓ : Prepared k Γ :=
    { input := ⟨rfl, .inr (hparams _ (by simp)), hcells (by simp [helperCells])⟩
      output := ⟨rfl, .inr (hparams _ (by simp)), hcells (by simp [helperCells])⟩
      length := ⟨.inr (hparams _ (by simp)), rfl⟩
      acc := Scope.within_address.pointsTo Scope.pointsTo_address
      counter := Scope.pointsTo_address }
  obtain ⟨Δ₁, h₁⟩ := sumLoop_checked m .i32 hΓ
  obtain ⟨Δ₂, h₂⟩ := scanCode_checked m .i32 (hΓ.within h₁.within) hscan
  obtain ⟨Δ₃, h₃⟩ := writeLoop_checked m .i32 ((hΓ.within h₁.within).within h₂.within)
  have hret : Checked m .i32 Δ₃ [.ret (some (.i32 0))] Δ₃ := .single (.ret (.inl rfl) rfl)
  exact ⟨Δ₃, hslots.append (((((resetCode_checked m .i32 hΓ).append h₁).append h₂).append h₃).append
    hret)⟩

end CumulativeSum

end

/-! ### Operands and results -/

def ArrayOperand.operands (a : ArrayOperand) : List Operand := a.data :: a.shape

def Primitive.arrays : Primitive → List ArrayOperand
  | .arrayReduce a | .setItem a .. => [a]
  | .cumulativeSum input output => [input, output]
  | .send m | .receive m => [m.array]
  | .rank | .size | .chunkEnd _ | .portion _ | .time | .reduce _ | .exclusiveScan _ | .wait .. => []

def Primitive.operands : Primitive → List Operand
  | .rank | .size | .time => []
  | .chunkEnd p | .portion p => p.toList
  | .reduce v | .exclusiveScan v => [v]
  | .arrayReduce a => a.operands
  | .cumulativeSum input output => input.operands ++ output.operands
  | .send m | .receive m => m.array.operands ++ [m.count, m.peer, m.tag, m.cond]
  | .wait request cond => [request, cond]
  | .setItem a indices value start count => a.operands ++ indices ++ [value, start, count]

namespace Source

def arrays : Source → List ArrayOperand
  | .primitive p => p.arrays
  | .element a _ => [a]

def operands : Source → List Operand
  | .primitive p => p.operands
  | .element a indices => a.operands ++ indices

/-- The operands, with the data of each array as the address of its elements. -/
def scope (w : Source) : Scope where
  values := w.operands
  cells := w.arrays.map fun a => (a.data, a.elemType)

def resultType : Source → Ty
  | .primitive (.chunkEnd _) | .primitive (.portion _) => .i64
  | .primitive .time => .double
  | .primitive (.reduce v) | .primitive (.exclusiveScan v) => v.type
  | .primitive _ => .i32
  | .element a _ => a.elemType

/-- The type of what is stored by the code. -/
def storedType? : Source → Option Ty
  | .primitive (.arrayReduce _) => some .i64
  | .primitive (.setItem a ..) => some a.elemType
  | _ => none

def isCall : Source → Bool
  | .primitive (.setItem ..) | .element .. => false
  | .primitive _ => true

end Source

/-- What lowering has added to a session. -/
structure Lowered (w : Source) (s t : Session) (v : Operand) (slots body : List Instr) : Prop where
  /-- The open function has grown by the code and by nothing else. -/
  draft : t.draft = (s.adding slots body).draft
  /-- The registers from the first free one up to the new first free one are defined in
  their order, each by one instruction. -/
  registers : Llvm.defined (slots ++ body) =
    List.range' s.draft.nextRegister (t.draft.nextRegister - s.draft.nextRegister)
  /-- The code is typed against the signatures of the module, from nothing but the
  operands. -/
  checked : ∀ ret, ∃ Γ, Checked t.module ret w.scope (slots ++ body) Γ ∧ Γ.Reads v
  stores : ∀ value ptr, Instr.store value ptr ∈ slots ++ body → w.storedType? = some value.type
  resultType : v.type = w.resultType
  callee : w.isCall → ∃ n callee sig args,
    body.getLast? = some (.call (some n) callee sig args) ∧ v = .register sig.ret n
  /-- What was defined on the way are helpers, which are typed as well. -/
  helpers : ∃ added, t.module.definitions.toList = s.module.definitions.toList ++ added ∧
    ∀ d ∈ added, ∃ k, d.name = CumulativeSum.helperName k ∧
      d.Typed t.module (CumulativeSum.helperCells k)

theorem registers_of_numbered {s : Session} {slots body : List Instr}
    (h : Numbered s.draft.nextRegister (slots ++ body)) :
    Llvm.defined (slots ++ body) = List.range' s.draft.nextRegister
      ((s.adding slots body).draft.nextRegister - s.draft.nextRegister) := by
  rw [Session.adding_nextRegister, Nat.add_sub_cancel_left]
  exact h

/-- Code whose last instruction is a call of something the module knows. -/
theorem lowered_of_last {w : Source} {s : Session} {m : Module} {slots body : List Instr} {n : Nat}
    {callee : String} {sig : Signature} {args : List Operand}
    (hn : n = (s.adding slots body).draft.nextRegister) (hknown : m.signature? callee = some sig)
    (hvoid : sig.ret ≠ .void) (hnumbered : Numbered s.draft.nextRegister (slots ++ body))
    (hchecked : ∀ ret, ∃ Γ, Checked m ret w.scope (slots ++ body) Γ ∧ ∀ a ∈ args, Γ.Reads a)
    (hstores : ∀ value ptr, Instr.store value ptr ∈ slots ++ body →
      w.storedType? = some value.type)
    (htypes : args.map Operand.type = sig.params) (hret : sig.ret = w.resultType)
    (hhelpers : ∃ added, m.definitions.toList = s.module.definitions.toList ++ added ∧
      ∀ d ∈ added, ∃ k, d.name = CumulativeSum.helperName k ∧
        d.Typed m (CumulativeSum.helperCells k)) :
    Lowered w s ((s.on m).adding slots (body ++ [.call (some n) callee sig args]))
      (.register sig.ret n) slots (body ++ [.call (some n) callee sig args]) where
  draft := by simp
  registers := by
    refine registers_of_numbered ?_
    rw [← List.append_assoc]
    exact hnumbered.append (.of_eq (k := 1) (hn ▸ rfl))
  checked ret := by
    obtain ⟨Γ, hΓ, hreads⟩ := hchecked ret
    refine ⟨Γ.value sig.ret n, ?_, Scope.reads_value⟩
    rw [← List.append_assoc]
    exact hΓ.append (.single (.call hknown hvoid htypes hreads))
  stores value ptr hmem := hstores value ptr (by simpa using hmem)
  resultType := hret
  callee _ := ⟨n, callee, sig, args, by simp, rfl⟩
  helpers := hhelpers

theorem lowered_of_callEntry {w : Source} {e : EntryPoint} {args : List Operand} {s t : Session}
    {v : Operand} {slots body : List Instr}
    (h : Lower.callEntry e args (s.adding slots body) = .ok v t)
    (hnumbered : Numbered s.draft.nextRegister (slots ++ body))
    (hchecked : ∀ m ret, ∃ Γ, Checked m ret w.scope (slots ++ body) Γ ∧ ∀ a ∈ args, Γ.Reads a)
    (hstores : ∀ value ptr, Instr.store value ptr ∈ slots ++ body →
      w.storedType? = some value.type)
    (htypes : args.map Operand.type = e.signature.params)
    (hret : e.signature.ret = w.resultType) :
    ∃ slots body, Lowered w s t v slots body := by
  obtain ⟨m, hm, rfl, rfl⟩ := Lower.callEntry_eq_ok h
  have hlowered := lowered_of_last rfl (Llvm.Module.signature?_of_declare hm) e.ret_ne_void
    hnumbered (hchecked m) hstores htypes hret
    ⟨[], by simp [Llvm.Module.definitions_of_declare hm], by simp⟩
  rw [Session.adding_on, Session.adding_adding, List.append_nil]
  exact ⟨_, _, hlowered⟩

theorem lowered_of_direct {w : Source} {e : EntryPoint} {args : List Operand} {s t : Session}
    {v : Operand} (h : Lower.callEntry e args s = .ok v t) (hargs : ∀ a ∈ args, w.scope.Reads a)
    (htypes : args.map Operand.type = e.signature.params)
    (hret : e.signature.ret = w.resultType) : ∃ slots body, Lowered w s t v slots body := by
  rw [← Session.adding_nil s] at h
  exact lowered_of_callEntry h rfl (fun m ret => ⟨w.scope, .nil, hargs⟩) (by simp) htypes hret

namespace Source

variable {w : Source} {a : ArrayOperand} {primitive : String}

theorem reads_of_mem {o : Operand} (h : o ∈ w.operands) : w.scope.Reads o := .inr h

theorem pointsTo_data (harray : a ∈ w.arrays) (hdata : a.data ∈ w.operands)
    (hcheck : a.data.type = .ptr) : w.scope.PointsTo a.data a.elemType :=
  ⟨hcheck, reads_of_mem hdata, List.mem_map.mpr ⟨a, harray, rfl⟩⟩

end Source

theorem numbered_slot (n length : Nat) (slot : Operand) (extents : List Operand) :
    Numbered n ([.alloca n (.array length .i64)] ++
      Lower.extentCode (.array length .i64) slot (n + 1) 0 extents) :=
  Numbered.append (.of_eq (k := 1) rfl) (.of_eq (Lower.defined_extentCode ..))

theorem store_mem_extentCode {slotType : Ty} {slot value ptr : Operand} {n i : Nat}
    {extents : List Operand}
    (h : Instr.store value ptr ∈ Lower.extentCode slotType slot n i extents) : value ∈ extents := by
  induction extents generalizing n i with
  | nil => simp [Lower.extentCode] at h
  | cons extent rest ih =>
      simp only [Lower.extentCode, List.mem_cons, reduceCtorEq, false_or, Instr.store.injEq] at h
      rcases h with ⟨rfl, -⟩ | h
      · exact .head _
      · exact .tail _ (ih h)

theorem lowered_arrayReduce {a : ArrayOperand} {s t : Session} {v : Operand}
    (h : Lower.arrayReduce a s = .ok v t) :
    ∃ slots body, Lowered (.primitive (.arrayReduce a)) s t v slots body := by
  obtain ⟨⟨⟩, hcheck, h⟩ := Lower.ofExcept_bind_eq_ok h
  obtain ⟨hdata, hshape⟩ := ArrayOperand.check_ok hcheck
  rw [Emit.bind_of_ok (Emit.alloca_eq ..), Emit.bind_of_ok (Lower.storeExtents_eq ..)] at h
  have hnext :
      (s.adding [.alloca s.draft.nextRegister (.array a.rank .i64)] []).draft.nextRegister =
        s.draft.nextRegister + 1 := rfl
  rw [Session.adding_adding, hnext, List.nil_append, List.append_nil] at h
  let w : Source := .primitive (.arrayReduce a)
  let Γ : Scope := w.scope.address (.array a.rank .i64) s.draft.nextRegister
  have hindex : ∀ d ∈ a.shape, IsIndex w.scope d :=
    fun d hd => ⟨Source.reads_of_mem (.tail _ hd), hshape d hd⟩
  refine lowered_of_callEntry h (numbered_slot ..) (fun m ret => ?_) ?_ ?_ rfl
  · obtain ⟨Δ, hΔ⟩ := Lower.extentCode_checked m ret (Γ := Γ) (s.draft.nextRegister + 1)
      Scope.pointsTo_address (fun d hd => (hindex d hd).within Scope.within_address)
      (Nat.le_of_eq (Nat.zero_add _))
    refine ⟨Δ, .cons .alloca hΔ, ?_⟩
    have hdata : Δ.Reads a.data :=
      hΔ.within.reads (Scope.within_address.reads (Source.reads_of_mem (.head _)))
    have hslot : Δ.Reads (.register .ptr s.draft.nextRegister) :=
      hΔ.within.reads Scope.reads_address
    simp only [List.mem_cons, List.not_mem_nil, or_false]
    rintro o (rfl | rfl | rfl | rfl)
    · exact hdata
    · exact hslot
    · exact .inl rfl
    · exact .inl rfl
  · intro value ptr hmem
    have hmem : value ∈ a.shape := store_mem_extentCode (by simpa using hmem)
    exact (congrArg some (hshape value hmem)).symm
  · simp [hdata, EntryPoint.signature, Operand.register, Operand.i32, Operand.int]

theorem store_not_mem_countCode {start value ptr : Operand} {n : Nat} {extents : List Operand} :
    Instr.store value ptr ∉ Lower.countCode n start extents := by
  induction extents generalizing n start with
  | nil => simp [Lower.countCode]
  | cons extent rest ih => simp [Lower.countCode, ih]

/-- A call of the helper behind the splicing of it: what the module has gained by both. -/
theorem helpers_of_call {k : ScalarKind} {s u : Session} {m : Module} {name : String}
    (hhelper : CumulativeSum.ensureHelper k s = .ok name u)
    (hm : u.module.declare (CumulativeSum.helperName k) CumulativeSum.helperSignature = .ok m) :
    ∃ added, m.definitions.toList = s.module.definitions.toList ++ added ∧
      ∀ d ∈ added, ∃ k, d.name = CumulativeSum.helperName k ∧
        d.Typed m (CumulativeSum.helperCells k) := by
  obtain ⟨-, ⟨-, rfl⟩ | ⟨m₁, m₂, hscan, hname, rfl⟩⟩ := CumulativeSum.ensureHelper_eq_ok hhelper
  · exact ⟨[], by simp [Llvm.Module.definitions_of_declare hm], by simp⟩
  · -- The helper's own signature is recorded when it is closed, so the call adds no symbol.
    have hrecorded := Llvm.Module.signature?_of_declare hname
    have hsig : ({ m₂ with definitions := m₂.definitions.push (CumulativeSum.helperDefinition k) } :
        Module).signature? (CumulativeSum.helperName k) = some CumulativeSum.helperSignature :=
      hrecorded
    cases (Llvm.Module.declare_of_signature? hsig).symm.trans hm
    refine ⟨[CumulativeSum.helperDefinition k], ?_, ?_⟩
    · simp [Llvm.Module.definitions_of_declare hname, Llvm.Module.definitions_of_declare hscan]
    · intro d hd
      obtain rfl := List.mem_singleton.mp hd
      exact ⟨k, rfl, CumulativeSum.helperDefinition_typed _
        ((Llvm.Module.knows_of_declare hname).signature
          (Llvm.Module.signature?_of_declare hscan))⟩

theorem lowered_cumulativeSum {input output : ArrayOperand} {s t : Session} {v : Operand}
    (h : Lower.cumulativeSum input output s = .ok v t) :
    ∃ slots body, Lowered (.primitive (.cumulativeSum input output)) s t v slots body := by
  obtain ⟨k, hkind, h⟩ := Lower.ofExcept_bind_eq_ok h
  obtain ⟨hinput, houtput, -, -⟩ := sumKind_ok hkind
  obtain ⟨hin, hshape⟩ := ArrayOperand.check_ok hinput
  obtain ⟨hout, -⟩ := ArrayOperand.check_ok houtput
  rw [Emit.bind_of_ok (Lower.elementCount_eq ..)] at h
  obtain ⟨name, u, hhelper, hcall⟩ := Emit.bind_eq_ok h
  have hhelper := Lower.lift_eq_ok hhelper
  have hcall := Lower.lift_eq_ok hcall
  obtain ⟨rfl, hu⟩ := CumulativeSum.ensureHelper_eq_ok hhelper
  have hdraft : u.draft = (s.adding [] (Lower.countCode s.draft.nextRegister (.i64 1)
      input.shape)).draft := by
    rcases hu with ⟨-, rfl⟩ | ⟨m, m', -, -, rfl⟩ <;> rfl
  have hvoid : CumulativeSum.helperSignature.ret ≠ .void := by simp [CumulativeSum.helperSignature]
  rw [Emit.call_eq hvoid] at hcall
  cases hm : u.module.declare (CumulativeSum.helperName k) CumulativeSum.helperSignature with
  | error e =>
      rw [hm] at hcall
      cases hcall
  | ok m =>
      rw [hm] at hcall
      cases hcall
      let w : Source := .primitive (.cumulativeSum input output)
      have hindex : ∀ d ∈ input.shape, IsIndex w.scope d :=
        fun d hd => ⟨Source.reads_of_mem (List.mem_append_left _ (.tail _ hd)), hshape d hd⟩
      have hcount := fun m ret => Lower.countCode_checked m ret s.draft.nextRegister
        (isIndex_i64 w.scope 1) hindex
      have htype : (Lower.countValue s.draft.nextRegister (.i64 1) input.shape).type = .i64 :=
        (hcount m .void).choose_spec.2.2
      have hu' : u.on m = (s.on m).adding [] (Lower.countCode s.draft.nextRegister (.i64 1)
          input.shape) := by
        rw [Session.on, hdraft]
        rfl
      have hhelpers := helpers_of_call hhelper hm
      rw [hu', Session.adding_adding, hdraft]
      refine ⟨_, _, lowered_of_last rfl (Llvm.Module.signature?_of_declare hm) hvoid
        (.of_eq (Lower.defined_countCode ..)) (fun ret => ?_) ?_ ?_ rfl hhelpers⟩
      · obtain ⟨Δ, hΔ, hread, -⟩ := hcount m ret
        refine ⟨Δ, hΔ, ?_⟩
        simp only [List.mem_cons, List.not_mem_nil, or_false]
        rintro o (rfl | rfl | rfl)
        · exact hΔ.within.reads (Source.reads_of_mem (.head _))
        · exact hΔ.within.reads (Source.reads_of_mem (List.mem_append_right _ (.head _)))
        · exact hread
      · exact fun value ptr hmem => (store_not_mem_countCode hmem).elim
      · simp [hin, hout, htype, CumulativeSum.helperSignature]

theorem ready_of_indexed {w : Source} {a : ArrayOperand} {first : Operand} {rest : List Operand}
    (h : Indexed a first rest) (harray : a ∈ w.arrays) (ha : a.operands ⊆ w.operands)
    (hindices : first :: rest ⊆ w.operands) : Lower.Ready w.scope a first rest where
  data := Source.pointsTo_data harray (ha (.head _)) h.data
  first := ⟨Source.reads_of_mem (hindices (.head _)), h.first⟩
  rest i hi := ⟨Source.reads_of_mem (hindices (.tail _ hi)), h.rest i hi⟩
  shape d hd := ⟨Source.reads_of_mem (ha (.tail _ hd)), h.shape d hd⟩

theorem numbered_distributedCode (n : Nat) (a : ArrayOperand) (first start count : Operand)
    (rest : List Operand) : Numbered n (Lower.distributedCode n a first rest start count) := by
  have hown := Lower.defined_ownCode (n + 1) a (.register .i64 n) rest
  refine .cons rfl (.append (.of_eq hown) (.of_eq (k := 3) ?_))
  rw [hown, List.length_range']
  simp [Llvm.Instr.dst?, EntryPoint.call, List.range', Nat.add_assoc, Nat.add_comm 1]

theorem store_not_mem_offsetCode {first value ptr : Operand} {n : Nat}
    {pairs : List (Operand × Operand)} :
    Instr.store value ptr ∉ Lower.offsetCode n first pairs := by
  induction pairs generalizing n first with
  | nil => simp [Lower.offsetCode]
  | cons p rest ih => simp [Lower.offsetCode, ih]

theorem store_not_mem_ownCode {a : ArrayOperand} {first value ptr : Operand} {rest : List Operand}
    {n : Nat} : Instr.store value ptr ∉ Lower.ownCode n a first rest := by
  simp [Lower.ownCode, store_not_mem_offsetCode]

theorem store_not_mem_distributedCode {a : ArrayOperand} {first start count value ptr : Operand}
    {rest : List Operand} {n : Nat} :
    Instr.store value ptr ∉ Lower.distributedCode n a first rest start count := by
  simp [Lower.distributedCode, store_not_mem_ownCode, EntryPoint.call]

theorem lowered_setItem {a : ArrayOperand} {indices : List Operand} {value start count v : Operand}
    {s t : Session} (h : Lower.setItem a indices value start count s = .ok v t) :
    ∃ slots body,
      Lowered (.primitive (.setItem a indices value start count)) s t v slots body := by
  obtain ⟨first, rest, m, m', rfl, hindexed, hstart, hcount, hvalue, hitem, hdummy, rfl, rfl⟩ :=
    Lower.setItem_eq_ok h
  let w : Source := .primitive (.setItem a (first :: rest) value start count)
  have hread : ∀ o ∈ [value, start, count], w.scope.Reads o :=
    fun o ho => Source.reads_of_mem (List.mem_append_right _ ho)
  have hready : Lower.Ready w.scope a first rest :=
    ready_of_indexed hindexed (.head _)
      (List.Subset.trans (List.subset_append_left ..) (List.subset_append_left ..))
      (List.Subset.trans (List.subset_append_right ..) (List.subset_append_left ..))
  have hknown := (Llvm.Module.knows_of_declare hdummy).signature
    (Llvm.Module.signature?_of_declare hitem)
  let ptr : Operand :=
    .register .ptr (s.draft.nextRegister + 2 * (Lower.dimensions a rest).length + 4)
  have hnumbered : Numbered s.draft.nextRegister
      (Lower.distributedCode s.draft.nextRegister a first rest start count ++ [.store value ptr]) :=
    .append (numbered_distributedCode ..) (.of_eq (k := 0) rfl)
  refine ⟨[], Lower.distributedCode s.draft.nextRegister a first rest start count ++
    [.store value ptr], ?_⟩
  exact
    { draft := rfl
      registers := registers_of_numbered hnumbered
      checked := by
        intro ret
        obtain ⟨Γ, hΓ, hptr⟩ := Lower.distributedCode_checked m' ret s.draft.nextRegister hready
          ⟨hread start (by simp), hstart⟩ ⟨hread count (by simp), hcount⟩ hknown
          (Llvm.Module.signature?_of_declare hdummy)
        refine ⟨Γ, hΓ.append (.single (.store (hΓ.within.reads (hread value (by simp))) ?_)),
          .inl rfl⟩
        rw [hvalue]
        exact hptr
      stores := by
        intro value' ptr' hmem
        rcases List.mem_append.mp (List.nil_append _ ▸ hmem) with hmem | hmem
        · exact (store_not_mem_distributedCode hmem).elim
        · cases List.mem_singleton.mp hmem
          exact (congrArg some hvalue).symm
      resultType := rfl
      callee := by simp [Source.isCall]
      helpers := ⟨[], by simp [Llvm.Module.definitions_of_declare hdummy,
        Llvm.Module.definitions_of_declare hitem], by simp⟩ }

theorem lowered_getItem {a : ArrayOperand} {indices : List Operand} {v : Operand} {s t : Session}
    (h : Lower.getItem a indices s = .ok v t) :
    ∃ slots body, Lowered (.element a indices) s t v slots body := by
  obtain ⟨first, rest, rfl, hindexed, rfl, rfl⟩ := Lower.getItem_eq_ok h
  let w : Source := .element a (first :: rest)
  have hready : Lower.Ready w.scope a first rest :=
    ready_of_indexed hindexed (.head _) (List.subset_append_left ..) (List.subset_append_right ..)
  have hown := Lower.defined_ownCode s.draft.nextRegister a first rest
  let ptr : Operand := .register .ptr (s.draft.nextRegister + 2 * (Lower.dimensions a rest).length)
  let load : Instr :=
    .load (s.draft.nextRegister + 2 * (Lower.dimensions a rest).length + 1) a.elemType ptr
  have hnumbered : Numbered s.draft.nextRegister
      (Lower.ownCode s.draft.nextRegister a first rest ++ [load]) := by
    refine .append (.of_eq hown) (.of_eq (k := 1) ?_)
    rw [hown, List.length_range', ← Nat.add_assoc]
    rfl
  refine ⟨[], Lower.ownCode s.draft.nextRegister a first rest ++ [load], ?_⟩
  exact
    { draft := rfl
      registers := registers_of_numbered hnumbered
      checked := by
        intro ret
        obtain ⟨Γ, hΓ, hptr⟩ := Lower.ownCode_checked s.module ret s.draft.nextRegister hready
        exact ⟨_, hΓ.append (.single (.load hptr)), Scope.reads_value⟩
      stores := by
        intro value ptr hmem
        simp [load, store_not_mem_ownCode] at hmem
      resultType := rfl
      callee := by simp [Source.isCall]
      helpers := ⟨[], by simp, by simp⟩ }

/-- Whatever is lowered, the code it adds defines the next registers one after the other,
reads only its own operands and what it has defined before, and fits the signatures that
the module has recorded; so does the code of a helper that is added with it. -/
theorem lower_wellTyped {w : Source} {s t : Session} {v : Operand} (h : w.lower s = .ok v t) :
    ∃ slots body, Lowered w s t v slots body := by
  cases w with
  | element a indices => exact lowered_getItem h
  | primitive p =>
      cases p with
      | rank | size | time => exact lowered_of_direct h (by simp) rfl rfl
      | chunkEnd p | portion p =>
          obtain ⟨⟨⟩, hcheck, hcall⟩ := Lower.ofExcept_bind_eq_ok h
          exact lowered_of_direct hcall (fun _ ho => Source.reads_of_mem ho)
            (PortionArgs.check_ok hcheck) rfl
      | reduce x | exclusiveScan x =>
          obtain ⟨k, hkind, hcall⟩ := Lower.ofExcept_bind_eq_ok h
          have hkind := scalarKind_ok hkind
          exact lowered_of_direct hcall (fun _ ho => Source.reads_of_mem ho)
            (by simp [EntryPoint.signature, hkind]) hkind
      | arrayReduce a => exact lowered_arrayReduce h
      | cumulativeSum input output => exact lowered_cumulativeSum h
      | send m | receive m =>
          obtain ⟨⟨⟩, hcheck, hcall⟩ := Lower.ofExcept_bind_eq_ok h
          refine lowered_of_direct hcall (fun o ho => ?_) (MessageArgs.check_ok hcheck) rfl
          simp only [MessageArgs.toList, List.mem_cons, List.not_mem_nil, or_false] at ho
          rcases ho with rfl | rfl | rfl | rfl | rfl | rfl
          case inr.inr.inl => exact .inl rfl
          all_goals exact Source.reads_of_mem (by simp [Source.operands, Primitive.operands,
            ArrayOperand.operands])
      | wait request cond =>
          obtain ⟨⟨⟩, hrequest, h⟩ := Lower.ofExcept_bind_eq_ok h
          obtain ⟨⟨⟩, hcond, hcall⟩ := Lower.ofExcept_bind_eq_ok h
          exact lowered_of_direct hcall (fun _ ho => Source.reads_of_mem ho)
            (by simp [EntryPoint.signature, expectType_ok hrequest, expectType_ok hcond]) rfl
      | setItem a indices value start count => exact lowered_setItem h

def emptyKernel : Session :=
  ⟨.start "main" {}, .start "kernel" .i32 [(.ptr, "a"), (.i64, "rows")] false⟩

def kernelArray : ArrayOperand := ⟨⟨.ptr, .param "a"⟩, [⟨.i64, .param "rows"⟩, .i64 3], .int32⟩

theorem lower_wellTyped_cumulativeSum :
    ∃ v t, (Source.primitive (.cumulativeSum kernelArray kernelArray)).lower emptyKernel = .ok v t ∧
      ∃ slots body, Lowered (.primitive (.cumulativeSum kernelArray kernelArray)) emptyKernel t v
        slots body := by
  have hok : Emit.succeeds (Source.primitive (.cumulativeSum kernelArray kernelArray)).lower
      emptyKernel := by decide +kernel
  obtain ⟨v, t, h⟩ := Emit.exists_of_succeeds hok
  exact ⟨v, t, h, lower_wellTyped h⟩

end SpmdArrays.Lowering
