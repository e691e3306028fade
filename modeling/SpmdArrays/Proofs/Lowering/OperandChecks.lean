import SpmdArrays.Proofs.Lowering.Emission

/-!
Operands are refused before any code is emitted. Every primitive says which types its
operands may have; some also want their arrays to agree, or one index for each dimension.
A check tells whether this is so, and a lowering is a row of checks followed by emission.
Emission fails only where a symbol is taken, so an error about an operand comes from a
check, and a check leaves the session alone.
-/

namespace SpmdArrays.Lowering

open Llvm (Ty Operand Session Emit)

/-- The error is about an operand, and not about a symbol of the module. -/
def Error.blamesOperand : Error → Bool
  | .unsupportedType .. | .invalidOperand .. => true
  | .llvm _ => false

/-! ### What is required of operands -/

/-- An operand and the types that it may have. -/
structure Requirement where
  operand : Operand
  types : List Ty

def Requirement.Met (r : Requirement) : Prop := r.operand.type ∈ r.types

def allOf (type : Ty) (os : List Operand) : List Requirement := os.map (⟨·, [type]⟩)

def ArrayOperand.requirements (a : ArrayOperand) : List Requirement :=
  ⟨a.data, [.ptr]⟩ :: allOf .i64 a.shape

def PortionArgs.requirements (p : PortionArgs) : List Requirement :=
  [⟨p.total, [.i64]⟩, ⟨p.chunks, [.i64]⟩, ⟨p.worker, [.i32]⟩, ⟨p.workers, [.i32]⟩]

def MessageArgs.requirements (m : MessageArgs) : List Requirement :=
  m.array.requirements ++
    [⟨m.count, [.i32]⟩, ⟨m.peer, [.i32]⟩, ⟨m.tag, [.i32]⟩, ⟨m.cond, [.i1]⟩]

def scalarTypes : List Ty := [.i32, .i64, .float, .double]

def sumElements : List ElementType := [.int32, .int64, .float32, .float64]

def Primitive.requirements : Primitive → List Requirement
  | .rank | .size | .time => []
  | .chunkEnd p | .portion p => p.requirements
  | .reduce v | .exclusiveScan v => [⟨v, scalarTypes⟩]
  | .arrayReduce a => a.requirements
  | .cumulativeSum input output => input.requirements ++ output.requirements
  | .send m | .receive m => m.requirements
  | .wait request cond => [⟨request, [.i32]⟩, ⟨cond, [.i1]⟩]
  | .setItem a indices value start count =>
    [⟨start, [.i64]⟩, ⟨count, [.i64]⟩, ⟨value, [a.elemType]⟩] ++ a.requirements ++
      allOf .i64 indices

/-- There is one index for each dimension, and at least one. -/
def ArrayOperand.Indexes (a : ArrayOperand) (indices : List Operand) : Prop :=
  indices ≠ [] ∧ indices.length = a.rank

namespace Source

def requirements : Source → List Requirement
  | .primitive p => p.requirements
  | .element a indices => a.requirements ++ allOf .i64 indices

/-- What is required of arrays besides the types of their operands. -/
def ArraysFit : Source → Prop
  | .primitive (.cumulativeSum input output) =>
    input.elem = output.elem ∧ input.elem ∈ sumElements
  | .primitive (.setItem a indices ..) | .element a indices => a.Indexes indices
  | .primitive _ => True

structure Fits (w : Source) : Prop where
  types : ∀ r ∈ w.requirements, r.Met
  arrays : w.ArraysFit

end Source

/-! ### Checks -/

/-- The check is passed under the condition and under no other, and its errors are about
operands. -/
structure Checks {α : Type} (P : Prop) (x : Except Error α) : Prop where
  passed : (∃ a, x = .ok a) ↔ P
  blames : ∀ e, x = .error e → e.blamesOperand

section

variable {α β : Type} {P Q : Prop}

theorem checks_ok (a : α) (h : P) : Checks P (.ok a) :=
  ⟨⟨fun _ => h, fun _ => ⟨a, rfl⟩⟩, fun e he => by cases he⟩

theorem checks_error {e : Error} (he : e.blamesOperand) (h : ¬ P) :
    Checks P (.error e : Except Error α) := by
  refine ⟨⟨fun ⟨a, ha⟩ => ?_, fun hP => absurd hP h⟩, fun e' he' => ?_⟩
  · cases ha
  · cases he'
    exact he

theorem Checks.iff {x : Except Error α} (h : Checks P x) (hiff : P ↔ Q) : Checks Q x :=
  ⟨h.passed.trans hiff, h.blames⟩

theorem Checks.bind {x : Except Error α} {g : α → Except Error β} (hx : Checks P x)
    (hg : ∀ a, Checks Q (g a)) : Checks (P ∧ Q) (x >>= g) := by
  cases x with
  | error e =>
      refine checks_error (hx.blames e rfl) fun h => ?_
      obtain ⟨a, ha⟩ := hx.passed.mpr h.1
      cases ha
  | ok a => exact (hg a).iff (and_iff_right (hx.passed.mp ⟨a, rfl⟩)).symm

theorem checks_expectType (primitive operand : String) (o : Operand) (type : Ty) :
    Checks (o.type = type) (expectType primitive operand o type) := by
  unfold expectType
  split
  · exact checks_ok () ‹_›
  · exact checks_error rfl ‹_›

theorem checks_find? {os : List Operand} {type : Ty} {e : Operand → Error} (a : α)
    (he : ∀ o, (e o).blamesOperand) :
    Checks (∀ r ∈ allOf type os, r.Met)
      (match os.find? fun o => o.type != type with
        | some o => .error (e o)
        | none => .ok a : Except Error α) := by
  have hmet : (∀ r ∈ allOf type os, r.Met) ↔ ∀ o ∈ os, o.type = type := by
    simp [allOf, Requirement.Met]
  cases hfind : os.find? fun o => o.type != type with
  | none =>
      refine checks_ok a (hmet.mpr fun o ho => ?_)
      simpa using List.find?_eq_none.mp hfind o ho
  | some o =>
      refine checks_error (he o) fun h => ?_
      have htype := hmet.mp h o (List.mem_of_find?_eq_some hfind)
      simpa [htype] using List.find?_some hfind

theorem ArrayOperand.checks_check (a : ArrayOperand) (primitive : String) :
    Checks (∀ r ∈ a.requirements, r.Met) (a.check primitive) := by
  have hsplit : (∀ r ∈ a.requirements, r.Met) ↔
      a.data.type = .ptr ∧ ∀ r ∈ allOf .i64 a.shape, r.Met := by
    simp [requirements, Requirement.Met]
  unfold check
  split
  · rename_i hdata
    exact checks_error rfl fun h => hdata (hsplit.mp h).1
  · rename_i hdata
    have hdata : a.data.type = .ptr := Classical.not_not.mp hdata
    exact (checks_find? () fun _ => rfl).iff (hsplit.trans (and_iff_right hdata)).symm

theorem checks_splitIndices (primitive : String) (a : ArrayOperand) (indices : List Operand) :
    Checks (a.Indexes indices ∧ ∀ r ∈ allOf .i64 indices, r.Met)
      (splitIndices primitive a indices) := by
  unfold splitIndices
  split
  · exact checks_error rfl fun h => h.1.1 rfl
  · rename_i first rest
    split
    · rename_i hrank
      exact checks_error rfl fun h => hrank h.1.2
    · rename_i hrank
      have hindexes : a.Indexes (first :: rest) :=
        ⟨List.cons_ne_nil first rest, Classical.not_not.mp hrank⟩
      exact (checks_find? (first, rest) fun _ => rfl).iff (and_iff_right hindexes).symm

theorem PortionArgs.checks_check (p : PortionArgs) (primitive : String) :
    Checks (∀ r ∈ p.requirements, r.Met) (p.check primitive) := by
  refine ((checks_expectType ..).bind fun _ => (checks_expectType ..).bind fun _ =>
    (checks_expectType ..).bind fun _ => checks_expectType ..).iff ?_
  simp [requirements, Requirement.Met]

theorem MessageArgs.checks_check (m : MessageArgs) (primitive : String) :
    Checks (∀ r ∈ m.requirements, r.Met) (m.check primitive) := by
  refine ((m.array.checks_check primitive).bind fun _ => (checks_expectType ..).bind fun _ =>
    (checks_expectType ..).bind fun _ => (checks_expectType ..).bind fun _ =>
      checks_expectType ..).iff ?_
  rw [requirements, List.forall_mem_append]
  simp [Requirement.Met]

theorem checks_scalarKind (primitive : String) (v : Operand) :
    Checks (∀ r ∈ [(⟨v, scalarTypes⟩ : Requirement)], r.Met) (scalarKind primitive v.type) := by
  have hmet : (∀ r ∈ [(⟨v, scalarTypes⟩ : Requirement)], r.Met) ↔
      (ScalarKind.ofType? v.type).isSome := by
    rw [List.forall_mem_singleton, Requirement.Met]
    cases v.type <;> simp [scalarTypes, ScalarKind.ofType?]
  unfold scalarKind
  cases hkind : ScalarKind.ofType? v.type with
  | none => exact checks_error rfl fun h => by simpa [hkind] using hmet.mp h
  | some k => exact checks_ok k (hmet.mpr (by rw [hkind]; rfl))

theorem checks_sumKind (primitive : String) (input output : ArrayOperand) :
    Checks ((∀ r ∈ input.requirements, r.Met) ∧ (∀ r ∈ output.requirements, r.Met) ∧
        input.elem = output.elem ∧ input.elem ∈ sumElements)
      (sumKind primitive input output) := by
  refine (input.checks_check primitive).bind fun _ => (output.checks_check primitive).bind fun _ =>
    ?_
  have hkind : input.elem ∈ sumElements ↔ (ScalarKind.ofElement? input.elem).isSome := by
    cases input.elem <;> simp [sumElements, ScalarKind.ofElement?]
  split
  · rename_i helem
    exact checks_error rfl fun h => helem h.1
  · rename_i helem
    have helem : input.elem = output.elem := Classical.not_not.mp helem
    refine Checks.iff ?_ (and_iff_right helem).symm
    cases h : ScalarKind.ofElement? input.elem with
    | none => exact checks_error rfl (by simp [hkind, h])
    | some k => exact checks_ok k (hkind.mpr (by simp [h]))

/-! ### Emission -/

/-- The computation never fails for want of the right operands. -/
structure Blameless (x : Lower α) : Prop where
  errors : ∀ s e t, x s = .error e t → ¬ e.blamesOperand

theorem blameless_of_ok {x : Lower α} {a : Session → α} {t : Session → Session}
    (h : ∀ s, x s = .ok (a s) (t s)) : Blameless x := by
  refine ⟨fun s e u hs => ?_⟩
  rw [h s] at hs
  cases hs

theorem Blameless.bind {x : Lower α} {g : α → Lower β} (hx : Blameless x)
    (hg : ∀ a, Blameless (g a)) : Blameless (x >>= g) := by
  refine ⟨fun s e t h => ?_⟩
  rw [Emit.bind_apply] at h
  cases hr : x s with
  | ok a u =>
      rw [hr] at h
      exact (hg a).errors u e t h
  | error e' u =>
      rw [hr] at h
      cases h
      exact hx.errors s _ _ hr

theorem blameless_lift (x : Emit Llvm.Error α) : Blameless (Lower.lift x) := by
  refine ⟨fun s e t h => ?_⟩
  unfold Lower.lift at h
  cases hr : x s with
  | ok a u =>
      rw [hr] at h
      cases h
  | error e' u =>
      rw [hr] at h
      cases h
      simp [Error.blamesOperand]

theorem blameless_callEntry (e : EntryPoint) (args : List Operand) :
    Blameless (Lower.callEntry e args) :=
  blameless_lift _

theorem blameless_elementPointer (a : ArrayOperand) (first : Operand) (rest : List Operand)
    (mode : AddressMode) : Blameless (Lower.elementPointer a first rest mode) := by
  cases mode with
  | own => exact blameless_of_ok (Lower.ownPointer_eq a first rest)
  | distributed start count =>
      exact (blameless_callEntry ..).bind fun _ =>
        (blameless_of_ok (Lower.offset_eq _ _)).bind fun _ =>
          (blameless_of_ok (Emit.gep_eq _ _ _)).bind fun _ =>
            (blameless_of_ok (Emit.icmp_eq _ _ _)).bind fun _ =>
              (blameless_callEntry ..).bind fun _ => blameless_of_ok (Emit.select_eq _ _ _)

/-! ### Checks in front of emission -/

/-- The computation refuses its operands unless the condition holds, and does so before
anything else; under the condition it has nothing to say about them. -/
structure Guards (P : Prop) (x : Lower α) : Prop where
  refuses : ¬ P → ∀ s, ∃ e, x s = .error e s ∧ e.blamesOperand
  accepts : P → Blameless x

theorem Guards.iff {x : Lower α} (h : Guards P x) (hiff : P ↔ Q) : Guards Q x :=
  ⟨fun hQ => h.refuses (mt hiff.mp hQ), fun hQ => h.accepts (hiff.mpr hQ)⟩

theorem Blameless.guards {x : Lower α} (h : Blameless x) : Guards True x :=
  ⟨fun hP => absurd trivial hP, fun _ => h⟩

theorem Guards.bind {x : Lower α} {g : α → Lower β} (hx : Guards P x)
    (hg : ∀ a, Blameless (g a)) : Guards P (x >>= g) := by
  refine ⟨fun hP s => ?_, fun hP => (hx.accepts hP).bind hg⟩
  obtain ⟨e, he, hblame⟩ := hx.refuses hP s
  refine ⟨e, ?_, hblame⟩
  rw [Emit.bind_apply, he]

theorem Checks.guards {c : Except Error α} {g : α → Lower β} (hc : Checks P c)
    (hg : ∀ a, Guards Q (g a)) : Guards (P ∧ Q) (Lower.ofExcept c >>= g) := by
  cases c with
  | error e =>
      have hP : ¬ P := fun h => by
        obtain ⟨a, ha⟩ := hc.passed.mpr h
        cases ha
      exact ⟨fun _ s => ⟨e, rfl, hc.blames e rfl⟩, fun h => absurd h.1 hP⟩
  | ok a => exact (hg a).iff (and_iff_right (hc.passed.mp ⟨a, rfl⟩)).symm

theorem Checks.guards_emission {c : Except Error α} {g : α → Lower β} (hc : Checks P c)
    (hg : ∀ a, Blameless (g a)) : Guards P (Lower.ofExcept c >>= g) :=
  (hc.guards fun a => (hg a).guards).iff (and_iff_left trivial)

theorem guards_itemPointer (primitive : String) (a : ArrayOperand) (indices : List Operand)
    (mode : AddressMode) :
    Guards ((∀ r ∈ a.requirements, r.Met) ∧ a.Indexes indices ∧
      ∀ r ∈ allOf .i64 indices, r.Met) (Lower.itemPointer primitive a indices mode) :=
  (a.checks_check primitive).guards fun _ =>
    (checks_splitIndices primitive a indices).guards_emission fun _ => blameless_elementPointer ..

end

theorem Source.fits_iff {w : Source} : w.Fits ↔ (∀ r ∈ w.requirements, r.Met) ∧ w.ArraysFit :=
  ⟨fun h => ⟨h.types, h.arrays⟩, fun h => ⟨h.1, h.2⟩⟩

theorem guards_of_types {w : Source} (hw : w.ArraysFit)
    (h : Guards (∀ r ∈ w.requirements, r.Met) w.lower) : Guards w.Fits w.lower :=
  h.iff (Source.fits_iff.trans (and_iff_left hw)).symm

theorem guards_element (a : ArrayOperand) (indices : List Operand) :
    Guards (Source.element a indices).Fits (Source.element a indices).lower := by
  refine ((guards_itemPointer "getitem" a indices .own).bind fun _ =>
    blameless_of_ok (Emit.load_eq _ _)).iff ?_
  rw [Source.fits_iff, Source.requirements, List.forall_mem_append, Source.ArraysFit, and_assoc,
    and_comm (a := a.Indexes indices)]

theorem guards_setItem (a : ArrayOperand) (indices : List Operand) (value start count : Operand) :
    Guards (Source.primitive (.setItem a indices value start count)).Fits
      (Lower.setItem a indices value start count) := by
  refine ((checks_expectType ..).guards fun _ => (checks_expectType ..).guards fun _ =>
    (checks_expectType ..).guards fun _ => (guards_itemPointer ..).bind fun _ =>
      (blameless_of_ok (Emit.store_eq _ _)).bind fun _ => blameless_of_ok fun _ => rfl).iff ?_
  rw [Source.fits_iff, Source.requirements, Primitive.requirements, List.forall_mem_append,
    List.forall_mem_append, Source.ArraysFit, List.forall_mem_cons, List.forall_mem_cons,
    List.forall_mem_singleton]
  simp only [Requirement.Met, List.mem_singleton, and_assoc, and_comm (a := a.Indexes indices)]

theorem guards_cumulativeSum (input output : ArrayOperand) :
    Guards (Source.primitive (.cumulativeSum input output)).Fits
      (Lower.cumulativeSum input output) := by
  refine ((checks_sumKind "cumulative_sum" input output).guards_emission fun _ =>
    (blameless_of_ok (Lower.elementCount_eq _ _)).bind fun _ =>
      (blameless_lift _).bind fun _ => blameless_lift _).iff ?_
  rw [Source.fits_iff, Source.requirements, Primitive.requirements, List.forall_mem_append,
    Source.ArraysFit, and_assoc]

/-- Lowering refuses just the operands that do not fit. -/
theorem guards_lower (w : Source) : Guards w.Fits w.lower := by
  cases w with
  | element a indices => exact guards_element a indices
  | primitive p =>
      cases p with
      | cumulativeSum input output => exact guards_cumulativeSum input output
      | setItem a indices value start count => exact guards_setItem a indices value start count
      | rank | size | time =>
          refine guards_of_types trivial ((blameless_callEntry ..).guards.iff ?_)
          simp [Source.requirements, Primitive.requirements]
      | chunkEnd p | portion p =>
          exact guards_of_types trivial
            ((p.checks_check _).guards_emission fun _ => blameless_callEntry ..)
      | reduce v | exclusiveScan v =>
          exact guards_of_types trivial
            ((checks_scalarKind _ v).guards_emission fun _ => blameless_callEntry ..)
      | send m | receive m =>
          exact guards_of_types trivial
            ((m.checks_check _).guards_emission fun _ => blameless_callEntry ..)
      | arrayReduce a =>
          exact guards_of_types trivial ((a.checks_check _).guards_emission fun _ =>
            (blameless_of_ok (Emit.alloca_eq _)).bind fun _ =>
              (blameless_of_ok (Lower.storeExtents_eq _ _ _ _)).bind fun _ =>
                blameless_callEntry ..)
      | wait request cond =>
          refine guards_of_types trivial (((checks_expectType ..).guards fun _ =>
            (checks_expectType ..).guards_emission fun _ => blameless_callEntry ..).iff ?_)
          simp [Source.requirements, Primitive.requirements, Requirement.Met]

/-- Errors about operands come before any code. Whatever is lowered in whatever session:
if it fails with an error about an operand, the module and the open function are as they
were, its counters included; it does so as soon as one operand has a type that it may not
have, whatever the others are; and it does so just when the operands do not fit. -/
theorem operand_errors_emit_nothing (w : Source) (s : Session) :
    (∀ e t, w.lower s = .error e t → e.blamesOperand → t = s) ∧
    (∀ r ∈ w.requirements, ¬ r.Met → ∃ e, w.lower s = .error e s ∧ e.blamesOperand) ∧
    ((∃ e t, w.lower s = .error e t ∧ e.blamesOperand) ↔ ¬ w.Fits) := by
  have hguards := guards_lower w
  refine ⟨fun e t h hblame => ?_, fun r hr hmet => ?_, fun ⟨e, t, h, hblame⟩ hfits => ?_,
    fun hfits => ?_⟩
  · by_cases hfits : w.Fits
    · exact absurd hblame ((hguards.accepts hfits).errors s e t h)
    · obtain ⟨e', h', -⟩ := hguards.refuses hfits s
      rw [h'] at h
      cases h
      rfl
  · exact hguards.refuses (fun hfits => hmet (hfits.types r hr)) s
  · exact (hguards.accepts hfits).errors s e t h hblame
  · obtain ⟨e, h, hblame⟩ := hguards.refuses hfits s
    exact ⟨e, s, h, hblame⟩

end SpmdArrays.Lowering
