import SpmdArrays.Proofs.Llvm.Building

/-!
Typing rules for emitted code. A scope says what may be read at a place of the code: the
operands that are there, each with its type, and of some addresses the type of what is
stored under them. Code is checked in its order against the signatures that a module has
recorded, so whatever an instruction reads was defined by an earlier one or was there
from the start.
-/

namespace SpmdArrays.Llvm

def Operand.IsConstant (o : Operand) : Prop :=
  match o.atom with
  | .int _ => o.type.isInt
  | .bool _ => o.type = .i1
  | .floatZero => o.type.isFloat
  | .null => o.type = .ptr
  | .register _ | .param _ | .absent | .verbatim _ => False

theorem Operand.isConstant_zero (type : Ty) (h : type.isInt ∨ type.isFloat) :
    (Operand.zero type).IsConstant := by
  cases type <;> simp_all [Operand.zero, Operand.int, IsConstant, Ty.isInt, Ty.isFloat]

def BinaryOp.On (op : BinaryOp) (type : Ty) : Prop :=
  match op with
  | .add | .mul => type.isInt
  | .fadd | .fmul => type.isFloat

structure Scope where
  /-- What may be read. -/
  values : List Operand
  /-- Addresses, each with the type of what is stored there. -/
  cells : List (Operand × Ty)

namespace Scope

def Reads (Γ : Scope) (o : Operand) : Prop := o.IsConstant ∨ o ∈ Γ.values

/-- An operand is there as the address of something of the given type. -/
structure PointsTo (Γ : Scope) (o : Operand) (type : Ty) : Prop where
  ptr : o.type = .ptr
  reads : Γ.Reads o
  cell : (o, type) ∈ Γ.cells

def value (Γ : Scope) (type : Ty) (n : Nat) : Scope :=
  { Γ with values := .register type n :: Γ.values }

def address (Γ : Scope) (type : Ty) (n : Nat) : Scope where
  values := .register .ptr n :: Γ.values
  cells := (.register .ptr n, type) :: Γ.cells

/-- All that was in scope still is. -/
structure Within (Γ Δ : Scope) : Prop where
  values : Γ.values ⊆ Δ.values
  cells : Γ.cells ⊆ Δ.cells

variable {Γ Δ Θ : Scope} {o : Operand} {type : Ty} {n : Nat}

theorem Within.refl (Γ : Scope) : Γ.Within Γ := ⟨List.Subset.refl _, List.Subset.refl _⟩

theorem Within.trans (h : Γ.Within Δ) (h' : Δ.Within Θ) : Γ.Within Θ :=
  ⟨List.Subset.trans h.values h'.values, List.Subset.trans h.cells h'.cells⟩

theorem Within.reads (h : Γ.Within Δ) (ho : Γ.Reads o) : Δ.Reads o :=
  ho.imp id fun hmem => h.values hmem

theorem Within.pointsTo (h : Γ.Within Δ) (ho : Γ.PointsTo o type) : Δ.PointsTo o type :=
  ⟨ho.ptr, h.reads ho.reads, h.cells ho.cell⟩

theorem within_value : Γ.Within (Γ.value type n) :=
  ⟨List.subset_cons_self .., List.Subset.refl _⟩

theorem within_address : Γ.Within (Γ.address type n) :=
  ⟨List.subset_cons_self .., List.subset_cons_self ..⟩

theorem reads_value : (Γ.value type n).Reads (.register type n) :=
  .inr (List.mem_cons_self ..)

theorem reads_address : (Γ.address type n).Reads (.register .ptr n) :=
  .inr (List.mem_cons_self ..)

theorem pointsTo_address : (Γ.address type n).PointsTo (.register .ptr n) type :=
  ⟨rfl, reads_address, List.mem_cons_self ..⟩

end Scope

/-- The typing rules. `m` holds the signatures, and `ret` is what the function returns. -/
inductive Instr.Typed (m : Module) (ret : Ty) : Scope → Instr → Scope → Prop where
  | call {Γ n callee sig args} (known : m.signature? callee = some sig) (value : sig.ret ≠ .void)
      (types : args.map Operand.type = sig.params) (reads : ∀ a ∈ args, Γ.Reads a) :
      Typed m ret Γ (.call (some n) callee sig args) (Γ.value sig.ret n)
  /-- Memory that a call hands out has no type of its own. -/
  | callAddress {Γ n callee sig args} (type : Ty) (known : m.signature? callee = some sig)
      (ptr : sig.ret = .ptr) (types : args.map Operand.type = sig.params)
      (reads : ∀ a ∈ args, Γ.Reads a) :
      Typed m ret Γ (.call (some n) callee sig args) (Γ.address type n)
  | callVoid {Γ callee sig args} (known : m.signature? callee = some sig)
      (void : sig.ret = .void) (types : args.map Operand.type = sig.params)
      (reads : ∀ a ∈ args, Γ.Reads a) : Typed m ret Γ (.call none callee sig args) Γ
  | alloca {Γ n type} : Typed m ret Γ (.alloca n type) (Γ.address type n)
  | store {Γ value ptr} (reads : Γ.Reads value) (cell : Γ.PointsTo ptr value.type) :
      Typed m ret Γ (.store value ptr) Γ
  | load {Γ n type ptr} (cell : Γ.PointsTo ptr type) :
      Typed m ret Γ (.load n type ptr) (Γ.value type n)
  /-- The address of an element some places further on. -/
  | element {Γ n elem ptr index} (cell : Γ.PointsTo ptr elem) (reads : Γ.Reads index)
      (type : index.type = .i64) : Typed m ret Γ (.gep n elem ptr [index]) (Γ.address elem n)
  /-- The address of a component of an array. -/
  | component {Γ n length elem ptr} {i : Nat} (cell : Γ.PointsTo ptr (.array length elem))
      (bound : i < length) :
      Typed m ret Γ (.gep n (.array length elem) ptr [.i64 0, .i64 i]) (Γ.address elem n)
  | binary {Γ n op lhs rhs} (on : op.On lhs.type) (same : lhs.type = rhs.type)
      (left : Γ.Reads lhs) (right : Γ.Reads rhs) :
      Typed m ret Γ (.binary n op lhs rhs) (Γ.value lhs.type n)
  | icmp {Γ n pred lhs rhs} (known : pred ∈ ["eq", "ne", "slt", "sle", "sgt", "sge"])
      (int : lhs.type.isInt) (same : lhs.type = rhs.type) (left : Γ.Reads lhs)
      (right : Γ.Reads rhs) : Typed m ret Γ (.icmp n pred lhs rhs) (Γ.value .i1 n)
  | select {Γ n cond yes no} (reads : Γ.Reads cond) (bit : cond.type = .i1)
      (same : yes.type = no.type) (left : Γ.Reads yes) (right : Γ.Reads no) :
      Typed m ret Γ (.select n cond yes no) (Γ.value yes.type n)
  /-- A choice between two addresses of one type is an address of that type. -/
  | selectAddress {Γ n cond yes no type} (reads : Γ.Reads cond) (bit : cond.type = .i1)
      (left : Γ.PointsTo yes type) (right : Γ.PointsTo no type) :
      Typed m ret Γ (.select n cond yes no) (Γ.address type n)
  | br {Γ target} : Typed m ret Γ (.br target) Γ
  | condBr {Γ cond yes no} (reads : Γ.Reads cond) (bit : cond.type = .i1) :
      Typed m ret Γ (.condBr cond yes no) Γ
  | ret {Γ value} (reads : Γ.Reads value) (type : value.type = ret) :
      Typed m ret Γ (.ret (some value)) Γ
  | retVoid {Γ} (void : ret = .void) : Typed m ret Γ (.ret none) Γ
  | label {Γ name} : Typed m ret Γ (.label name) Γ

inductive Checked (m : Module) (ret : Ty) : Scope → List Instr → Scope → Prop where
  | nil {Γ} : Checked m ret Γ [] Γ
  | cons {Γ Δ Θ i code} (head : i.Typed m ret Γ Δ) (tail : Checked m ret Δ code Θ) :
      Checked m ret Γ (i :: code) Θ

section

variable {m m' : Module} {ret : Ty} {Γ Δ Θ : Scope} {i : Instr} {code code' : List Instr}

theorem Instr.Typed.within (h : i.Typed m ret Γ Δ) : Γ.Within Δ := by
  cases h with
  | callVoid | store | br | condBr | ret | retVoid | label => exact .refl _
  | call | load | binary | icmp | select => exact Scope.within_value
  | callAddress | alloca | element | component | selectAddress => exact Scope.within_address

theorem Checked.within (h : Checked m ret Γ code Δ) : Γ.Within Δ := by
  induction h with
  | nil => exact .refl _
  | cons head _ ih => exact head.within.trans ih

theorem Checked.append (h : Checked m ret Γ code Δ) (h' : Checked m ret Δ code' Θ) :
    Checked m ret Γ (code ++ code') Θ := by
  induction h with
  | nil => exact h'
  | cons head _ ih => exact .cons head (ih h')

theorem Checked.single (h : i.Typed m ret Γ Δ) : Checked m ret Γ [i] Δ := .cons h .nil

end

/-! ### Numbered results -/

/-- The results are in successive registers from `n` on. -/
def Numbered (n : Nat) (code : List Instr) : Prop :=
  defined code = List.range' n (defined code).length

theorem Numbered.append {n : Nat} {code code' : List Instr} (h : Numbered n code)
    (h' : Numbered (n + (defined code).length) code') : Numbered n (code ++ code') := by
  unfold Numbered at h h' ⊢
  rw [defined_append, List.length_append, ← List.range'_append_1, ← h, ← h']

theorem Numbered.of_eq {n k : Nat} {code : List Instr} (h : defined code = List.range' n k) :
    Numbered n code := by
  rw [Numbered, h, List.length_range']

theorem Numbered.cons {n : Nat} {i : Instr} {code : List Instr} (h : i.dst? = some n)
    (h' : Numbered (n + 1) code) : Numbered n (i :: code) := by
  have hi : defined [i] = [n] := by simp [h]
  exact .append (.of_eq (k := 1) hi) (by rwa [hi])

/-- A function whose code is checked as a whole: what is there at its start are its
parameters, and its results are numbered from zero. -/
structure Definition.Typed (m : Module) (d : Definition) (cells : List (Operand × Ty)) : Prop where
  numbered : Numbered 0 (d.slots.toList ++ d.body.toList)
  checked : ∃ Γ, Checked m d.sig.ret ⟨d.params, cells⟩ (d.slots.toList ++ d.body.toList) Γ

end SpmdArrays.Llvm
