import SpmdArrays.Lowering.Primitive
import SpmdArrays.Proofs.Llvm.Building

/-!
The code of lowered primitives, in closed form. What is emitted depends on the
operands and on the number of the first free register alone, so each loop over
dimensions is equal to a list of instructions that is a plain function of that
number. A computation that succeeds has passed its checks, found every entry point
free or declared as it needs it, and added just this code.
-/

namespace SpmdArrays.Lowering

open Llvm (Ty Operand Instr Signature Session Emit)

/-- What is lowered: a distributed primitive, or a read of an element. -/
inductive Source where
  | primitive (p : Primitive)
  | element (a : ArrayOperand) (indices : List Operand)
  deriving DecidableEq, Repr

def Source.lower : Source → Lower Operand
  | .primitive p => p.lower
  | .element a indices => Lower.getItem a indices

namespace Lower

/-! ### Computations, one operation at a time -/

section

variable {α β : Type} {s t : Session} {a : α}

theorem ofExcept_bind_eq_ok {x : Except Error α} {g : α → Lower β} {b : β}
    (h : (ofExcept x >>= g) s = .ok b t) : ∃ a, x = .ok a ∧ g a s = .ok b t := by
  cases x with
  | error e => cases h
  | ok a => exact ⟨a, rfl, h⟩

theorem lift_eq_ok {x : Emit Llvm.Error α} (h : lift x s = .ok a t) : x s = .ok a t := by
  unfold lift at h
  cases hx : x s with
  | error e u =>
      rw [hx] at h
      cases h
  | ok b u =>
      rw [hx] at h
      cases h
      rfl

end

end Lower

def EntryPoint.call (e : EntryPoint) (n : Nat) (args : List Operand) : Instr :=
  .call (some n) e.symbol e.signature args

theorem EntryPoint.ret_ne_void (e : EntryPoint) : e.signature.ret ≠ .void := by
  cases e with
  | reduce k | exclusiveScan k => cases k <;> simp [signature, ScalarKind.type]
  | _ => simp [signature]

namespace Lower

theorem callEntry_eq_ok {e : EntryPoint} {args : List Operand} {s t : Session} {v : Operand}
    (h : callEntry e args s = .ok v t) :
    ∃ m, s.module.declare e.symbol e.signature = .ok m ∧
      v = .register e.signature.ret s.draft.nextRegister ∧
      t = (s.on m).adding [] [e.call s.draft.nextRegister args] := by
  have hcall := lift_eq_ok h
  rw [Emit.call_eq e.ret_ne_void] at hcall
  cases hm : s.module.declare e.symbol e.signature with
  | error _ =>
      rw [hm] at hcall
      cases hcall
  | ok m =>
      rw [hm] at hcall
      cases hcall
      exact ⟨m, rfl, rfl, rfl⟩

/-! ### Loops over dimensions -/

/-- The code of a row-major offset from register `n` on. -/
def offsetCode (n : Nat) (first : Operand) : List (Operand × Operand) → List Instr
  | [] => []
  | (index, extent) :: rest =>
    .binary n (.mulOf first.type) first extent ::
    .binary (n + 1) (.addOf first.type) (.register first.type n) index ::
      offsetCode (n + 2) (.register first.type (n + 1)) rest

def offsetValue (n : Nat) (first : Operand) : List (Operand × Operand) → Operand
  | [] => first
  | _ :: rest => offsetValue (n + 2) (.register first.type (n + 1)) rest

theorem offset_eq (first : Operand) (pairs : List (Operand × Operand)) (s : Session) :
    offset first pairs s =
      .ok (offsetValue s.draft.nextRegister first pairs)
        (s.adding [] (offsetCode s.draft.nextRegister first pairs)) := by
  induction pairs generalizing first s with
  | nil => simp [offset, offsetCode, offsetValue, Emit.pure_apply]
  | cons p rest ih =>
      obtain ⟨index, extent⟩ := p
      rw [offset, Emit.bind_of_ok (Emit.mul_eq ..), Emit.bind_of_ok (Emit.add_eq ..), ih]
      simp [offsetCode, offsetValue, Llvm.Instr.dst?, Operand.register]

theorem defined_offsetCode (n : Nat) (first : Operand) (pairs : List (Operand × Operand)) :
    Llvm.defined (offsetCode n first pairs) = List.range' n (2 * pairs.length) := by
  induction pairs generalizing n first with
  | nil => rfl
  | cons p rest ih =>
      rw [List.length_cons, Nat.mul_succ, List.range'_succ, List.range'_succ]
      simp [offsetCode, ih, Llvm.Instr.dst?]

def extentCode (slotType : Ty) (slot : Operand) (n k : Nat) : List Operand → List Instr
  | [] => []
  | extent :: rest =>
    .gep n slotType slot [.i64 0, .i64 k] :: .store extent (.register .ptr n) ::
      extentCode slotType slot (n + 1) (k + 1) rest

theorem storeExtents_eq (slotType : Ty) (slot : Operand) (k : Nat) (extents : List Operand)
    (s : Session) :
    storeExtents slotType slot k extents s =
      .ok () (s.adding [] (extentCode slotType slot s.draft.nextRegister k extents)) := by
  induction extents generalizing k s with
  | nil => simp [storeExtents, extentCode, Emit.pure_apply]
  | cons extent rest ih =>
      rw [storeExtents, Emit.bind_of_ok (Emit.gep_eq ..), Emit.bind_of_ok (Emit.store_eq ..), ih]
      simp [extentCode, Llvm.Instr.dst?]

theorem defined_extentCode (slotType : Ty) (slot : Operand) (n k : Nat) (extents : List Operand) :
    Llvm.defined (extentCode slotType slot n k extents) = List.range' n extents.length := by
  induction extents generalizing n k with
  | nil => rfl
  | cons extent rest ih =>
      rw [List.length_cons, List.range'_succ]
      simp [extentCode, ih, Llvm.Instr.dst?]

def countCode (n : Nat) (start : Operand) : List Operand → List Instr
  | [] => []
  | extent :: rest =>
    .binary n (.mulOf start.type) start extent ::
      countCode (n + 1) (.register start.type n) rest

def countValue (n : Nat) (start : Operand) : List Operand → Operand
  | [] => start
  | _ :: rest => countValue (n + 1) (.register start.type n) rest

theorem elementCount_eq (start : Operand) (extents : List Operand) (s : Session) :
    elementCount start extents s =
      .ok (countValue s.draft.nextRegister start extents)
        (s.adding [] (countCode s.draft.nextRegister start extents)) := by
  induction extents generalizing start s with
  | nil => simp [elementCount, countCode, countValue, Emit.pure_apply]
  | cons extent rest ih =>
      rw [elementCount, Emit.bind_of_ok (Emit.mul_eq ..), ih]
      simp [countCode, countValue, Llvm.Instr.dst?, Operand.register]

theorem defined_countCode (n : Nat) (start : Operand) (extents : List Operand) :
    Llvm.defined (countCode n start extents) = List.range' n extents.length := by
  induction extents generalizing n start with
  | nil => rfl
  | cons extent rest ih =>
      rw [List.length_cons, List.range'_succ]
      simp [countCode, ih, Llvm.Instr.dst?]

/-! ### Checks -/

end Lower

theorem expectType_ok {primitive operand : String} {o : Operand} {type : Ty}
    (h : expectType primitive operand o type = .ok ()) : o.type = type := by
  unfold expectType at h
  split at h
  · assumption
  · cases h

theorem check_bind_ok {α : Type} {x : Except Error Unit} {y : Except Error α} {a : α}
    (h : (x >>= fun _ => y) = .ok a) : x = .ok () ∧ y = .ok a := by
  cases x with
  | error e => cases h
  | ok u => exact ⟨rfl, h⟩

theorem ArrayOperand.check_ok {a : ArrayOperand} {primitive : String}
    (h : a.check primitive = .ok ()) : a.data.type = .ptr ∧ ∀ d ∈ a.shape, d.type = .i64 := by
  unfold check at h
  split at h
  · cases h
  · rename_i hdata
    refine ⟨Classical.not_not.mp hdata, ?_⟩
    split at h
    · cases h
    · rename_i hshape
      simpa using hshape

theorem splitIndices_ok {primitive : String} {a : ArrayOperand} {indices rest : List Operand}
    {first : Operand} (h : splitIndices primitive a indices = .ok (first, rest)) :
    indices = first :: rest ∧ rest.length + 1 = a.rank ∧ ∀ i ∈ indices, i.type = .i64 := by
  unfold splitIndices at h
  split at h
  · cases h
  · rename_i f r
    split at h
    · cases h
    · rename_i hrank
      split at h
      · cases h
      · rename_i htypes
        cases h
        exact ⟨rfl, Classical.not_not.mp hrank, by simpa using htypes⟩

theorem PortionArgs.check_ok {p : PortionArgs} {primitive : String}
    (h : p.check primitive = .ok ()) : p.toList.map Operand.type = [.i64, .i64, .i32, .i32] := by
  obtain ⟨htotal, h⟩ := check_bind_ok h
  obtain ⟨hchunks, h⟩ := check_bind_ok h
  obtain ⟨hworker, hworkers⟩ := check_bind_ok h
  simp [toList, expectType_ok htotal, expectType_ok hchunks, expectType_ok hworker,
    expectType_ok hworkers]

theorem MessageArgs.check_ok {m : MessageArgs} {primitive : String}
    (h : m.check primitive = .ok ()) :
    m.toList.map Operand.type = [.ptr, .i32, .i32, .i32, .i32, .i1] := by
  obtain ⟨harray, h⟩ := check_bind_ok h
  obtain ⟨hcount, h⟩ := check_bind_ok h
  obtain ⟨hpeer, h⟩ := check_bind_ok h
  obtain ⟨htag, hcond⟩ := check_bind_ok h
  simp [toList, (ArrayOperand.check_ok harray).1, expectType_ok hcount, expectType_ok hpeer,
    expectType_ok htag, expectType_ok hcond, Operand.i32, Operand.int]

theorem scalarKind_ok {primitive : String} {type : Ty} {k : ScalarKind}
    (h : scalarKind primitive type = .ok k) : k.type = type := by
  unfold scalarKind at h
  cases type <;> cases h <;> rfl

theorem sumKind_ok {primitive : String} {input output : ArrayOperand} {k : ScalarKind}
    (h : sumKind primitive input output = .ok k) :
    input.check primitive = .ok () ∧ output.check primitive = .ok () ∧
      input.elem = output.elem ∧ k.type = input.elemType := by
  obtain ⟨hinput, h⟩ := check_bind_ok h
  obtain ⟨houtput, h⟩ := check_bind_ok h
  split at h
  · cases h
  · rename_i helem
    refine ⟨hinput, houtput, Classical.not_not.mp helem, ?_⟩
    unfold ArrayOperand.elemType
    cases hkind : input.elem <;> rw [hkind] at h <;> cases h <;> rfl

/-- An element is addressed by operands of the right types, as many as the array has
dimensions. -/
structure Indexed (a : ArrayOperand) (first : Operand) (rest : List Operand) : Prop where
  data : a.data.type = .ptr
  shape : ∀ d ∈ a.shape, d.type = .i64
  rank : rest.length + 1 = a.rank
  first : first.type = .i64
  rest : ∀ i ∈ rest, i.type = .i64

namespace Lower

/-! ### Elements -/

def dimensions (a : ArrayOperand) (rest : List Operand) : List (Operand × Operand) :=
  rest.zip a.shape.tail

/-- The code of an element's address in this process's own part, from register `n` on. -/
def ownCode (n : Nat) (a : ArrayOperand) (first : Operand) (rest : List Operand) : List Instr :=
  offsetCode n first (dimensions a rest) ++
    [.gep (n + 2 * (dimensions a rest).length) a.elemType a.data
      [offsetValue n first (dimensions a rest)]]

/-- The code of an element's address in a distributed array, from register `n` on, up
to the choice between the element and the dummy slot. -/
def distributedCode (n : Nat) (a : ArrayOperand) (first : Operand) (rest : List Operand)
    (start count : Operand) : List Instr :=
  let row : Operand := .register .i64 n
  let last := n + 2 * (dimensions a rest).length + 1
  EntryPoint.itemPointer.call n [first, start, count] ::
    ownCode (n + 1) a row rest ++
    [.icmp (last + 1) "eq" row (.i64 (-1)), EntryPoint.dummyPointer.call (last + 2) [],
      .select (last + 3) (.register .i1 (last + 1)) (.register .ptr (last + 2))
        (.register .ptr last)]

theorem defined_ownCode (n : Nat) (a : ArrayOperand) (first : Operand) (rest : List Operand) :
    Llvm.defined (ownCode n a first rest) =
      List.range' n (2 * (dimensions a rest).length + 1) := by
  rw [ownCode, Llvm.defined_append, defined_offsetCode, List.range'_1_concat]
  rfl

theorem ownPointer_eq (a : ArrayOperand) (first : Operand) (rest : List Operand) (s : Session) :
    elementPointer a first rest .own s =
      .ok (.register .ptr (s.draft.nextRegister + 2 * (dimensions a rest).length))
        (s.adding [] (ownCode s.draft.nextRegister a first rest)) := by
  rw [elementPointer, ← dimensions, Emit.bind_of_ok (offset_eq ..), Emit.gep_eq]
  simp [ownCode, defined_offsetCode]

theorem distributedPointer_eq_ok {a : ArrayOperand} {first : Operand} {rest : List Operand}
    {start count v : Operand} {s t : Session}
    (h : elementPointer a first rest (.distributed start count) s = .ok v t) :
    ∃ m m',
      s.module.declare EntryPoint.itemPointer.symbol EntryPoint.itemPointer.signature = .ok m ∧
      m.declare EntryPoint.dummyPointer.symbol EntryPoint.dummyPointer.signature = .ok m' ∧
      v = .register .ptr (s.draft.nextRegister + 2 * (dimensions a rest).length + 4) ∧
      t = (s.on m').adding []
        (distributedCode s.draft.nextRegister a first rest start count) := by
  rw [elementPointer, ← dimensions] at h
  obtain ⟨row, u, hrow, h⟩ := Emit.bind_eq_ok h
  obtain ⟨m, hm, rfl, rfl⟩ := callEntry_eq_ok hrow
  rw [Emit.bind_of_ok (offset_eq ..), Emit.bind_of_ok (Emit.gep_eq ..),
    Emit.bind_of_ok (Emit.icmp_eq ..)] at h
  obtain ⟨dummy, u, hdummy, h⟩ := Emit.bind_eq_ok h
  obtain ⟨m', hm', rfl, rfl⟩ := callEntry_eq_ok hdummy
  rw [Emit.select_eq] at h
  cases h
  refine ⟨m, m', hm, hm', ?_, ?_⟩
  · simp [defined_offsetCode, EntryPoint.call, Llvm.Instr.dst?, Operand.register,
      EntryPoint.signature, Nat.add_assoc]
  · simp [distributedCode, ownCode, defined_offsetCode, EntryPoint.call, Llvm.Instr.dst?,
      EntryPoint.signature, Nat.add_assoc, Nat.add_comm, Nat.add_left_comm]

theorem itemPointer_eq_ok {primitive : String} {a : ArrayOperand} {indices : List Operand}
    {mode : AddressMode} {s t : Session} {v : Operand}
    (h : itemPointer primitive a indices mode s = .ok v t) :
    ∃ first rest, indices = first :: rest ∧ Indexed a first rest ∧
      elementPointer a first rest mode s = .ok v t := by
  obtain ⟨⟨⟩, hcheck, h⟩ := ofExcept_bind_eq_ok h
  obtain ⟨⟨first, rest⟩, hsplit, hpointer⟩ := ofExcept_bind_eq_ok h
  obtain ⟨hdata, hshape⟩ := ArrayOperand.check_ok hcheck
  obtain ⟨rfl, hrank, htypes⟩ := splitIndices_ok hsplit
  exact ⟨first, rest, rfl, ⟨hdata, hshape, hrank, htypes first (by simp),
    fun i hi => htypes i (by simp [hi])⟩, hpointer⟩

theorem setItem_eq_ok {a : ArrayOperand} {indices : List Operand} {value start count v : Operand}
    {s t : Session} (h : setItem a indices value start count s = .ok v t) :
    ∃ first rest m m', indices = first :: rest ∧ Indexed a first rest ∧
      start.type = .i64 ∧ count.type = .i64 ∧ value.type = a.elemType ∧
      s.module.declare EntryPoint.itemPointer.symbol EntryPoint.itemPointer.signature = .ok m ∧
      m.declare EntryPoint.dummyPointer.symbol EntryPoint.dummyPointer.signature = .ok m' ∧
      v = .i32 0 ∧
      t = (s.on m').adding [] (distributedCode s.draft.nextRegister a first rest start count ++
        [.store value (.register .ptr
          (s.draft.nextRegister + 2 * (dimensions a rest).length + 4))]) := by
  obtain ⟨⟨⟩, hstart, h⟩ := ofExcept_bind_eq_ok h
  obtain ⟨⟨⟩, hcount, h⟩ := ofExcept_bind_eq_ok h
  obtain ⟨⟨⟩, hvalue, h⟩ := ofExcept_bind_eq_ok h
  obtain ⟨ptr, u, hptr, h⟩ := Emit.bind_eq_ok h
  obtain ⟨first, rest, rfl, hindexed, hptr⟩ := itemPointer_eq_ok hptr
  obtain ⟨m, m', hm, hm', rfl, rfl⟩ := distributedPointer_eq_ok hptr
  rw [Emit.bind_of_ok (Emit.store_eq ..), Emit.pure_apply] at h
  cases h
  refine ⟨first, rest, m, m', rfl, hindexed, expectType_ok hstart, expectType_ok hcount,
    expectType_ok hvalue, hm, hm', rfl, ?_⟩
  simp

theorem getItem_eq_ok {a : ArrayOperand} {indices : List Operand} {v : Operand} {s t : Session}
    (h : getItem a indices s = .ok v t) :
    ∃ first rest, indices = first :: rest ∧ Indexed a first rest ∧
      v = .register a.elemType (s.draft.nextRegister + 2 * (dimensions a rest).length + 1) ∧
      t = s.adding [] (ownCode s.draft.nextRegister a first rest ++
        [.load (s.draft.nextRegister + 2 * (dimensions a rest).length + 1) a.elemType
          (.register .ptr (s.draft.nextRegister + 2 * (dimensions a rest).length))]) := by
  obtain ⟨ptr, u, hptr, h⟩ := Emit.bind_eq_ok h
  obtain ⟨first, rest, rfl, hindexed, hptr⟩ := itemPointer_eq_ok hptr
  rw [ownPointer_eq] at hptr
  cases hptr
  rw [Emit.load_eq] at h
  cases h
  refine ⟨first, rest, rfl, hindexed, ?_, ?_⟩
  · simp [defined_ownCode, Nat.add_assoc]
  · simp [defined_ownCode, Nat.add_assoc]

end Lower

end SpmdArrays.Lowering
