import SpmdArrays.Proofs.Llvm.Following
import SpmdArrays.Proofs.Lowering.Emission

/-!
What lowering does to a session, for any relation that is kept by the operations on an
open function. The helper for cumulative sums is written in a function of its own, so
what it does is asked for besides.
-/

namespace SpmdArrays.Lowering

open Llvm (Ty Operand Session Emit)
open Llvm.Emit (Follows Composes)

variable {R : Session → Session → Prop} [Composes R]

namespace Lower

theorem follows_ofExcept {α : Type} (x : Except Error α) : Follows R (ofExcept x) := by
  refine ⟨fun s => ?_⟩
  cases x with
  | error e | ok a => exact Composes.refl s

omit [Composes R] in
theorem follows_lift {α : Type} {x : Emit Llvm.Error α} (hx : Follows R x) :
    Follows R (lift x) := by
  refine ⟨fun s => ?_⟩
  have h := hx.step s
  unfold lift
  cases hr : x s with
  | error e t | ok a t =>
      rw [hr] at h
      exact h

theorem follows_callEntry (e : EntryPoint) (args : List Operand) :
    Follows R (callEntry e args) :=
  follows_lift (Emit.follows_call ..)

theorem follows_offset (first : Operand) (pairs : List (Operand × Operand)) :
    Follows R (offset first pairs) := by
  induction pairs generalizing first with
  | nil => exact Emit.follows_pure first
  | cons p rest ih =>
      exact (Emit.follows_mul ..).bind fun _ => (Emit.follows_add ..).bind fun _ => ih _

theorem follows_elementPointer (a : ArrayOperand) (first : Operand) (rest : List Operand)
    (mode : AddressMode) : Follows R (elementPointer a first rest mode) := by
  cases mode with
  | own => exact (follows_offset ..).bind fun _ => Emit.follows_gep ..
  | distributed start count =>
      exact (follows_callEntry ..).bind fun _ => (follows_offset ..).bind fun _ =>
        (Emit.follows_gep ..).bind fun _ => (Emit.follows_icmp ..).bind fun _ =>
          (follows_callEntry ..).bind fun _ => Emit.follows_select ..

theorem follows_itemPointer (primitive : String) (a : ArrayOperand) (indices : List Operand)
    (mode : AddressMode) : Follows R (itemPointer primitive a indices mode) :=
  (follows_ofExcept _).bind fun _ => (follows_ofExcept _).bind fun _ => follows_elementPointer ..

theorem follows_storeExtents (slotType : Ty) (slot : Operand) (i : Nat) (extents : List Operand) :
    Follows R (storeExtents slotType slot i extents) := by
  induction extents generalizing i with
  | nil => exact Emit.follows_pure ()
  | cons extent rest ih =>
      exact (Emit.follows_gep ..).bind fun _ => (Emit.follows_store ..).bind fun _ => ih _

theorem follows_elementCount (n : Operand) (extents : List Operand) :
    Follows R (elementCount n extents) := by
  induction extents generalizing n with
  | nil => exact Emit.follows_pure n
  | cons extent rest ih => exact (Emit.follows_mul ..).bind fun _ => ih _

end Lower

/-- Lowering does what its operations do and what the helper does. -/
theorem follows_lower (hhelper : ∀ k, Follows R (CumulativeSum.ensureHelper k)) (w : Source) :
    Follows R w.lower := by
  cases w with
  | element a indices => exact (Lower.follows_itemPointer ..).bind fun _ => Emit.follows_load ..
  | primitive p =>
      cases p with
      | rank | size | time => exact Lower.follows_callEntry ..
      | chunkEnd _ | portion _ | reduce _ | exclusiveScan _ | send _ | receive _ =>
          exact (Lower.follows_ofExcept _).bind fun _ => Lower.follows_callEntry ..
      | wait _ _ =>
          exact (Lower.follows_ofExcept _).bind fun _ => (Lower.follows_ofExcept _).bind fun _ =>
            Lower.follows_callEntry ..
      | arrayReduce a =>
          exact (Lower.follows_ofExcept _).bind fun _ => (Emit.follows_alloca _).bind fun _ =>
            (Lower.follows_storeExtents ..).bind fun _ => Lower.follows_callEntry ..
      | cumulativeSum input output =>
          exact (Lower.follows_ofExcept _).bind fun _ =>
            (Lower.follows_elementCount ..).bind fun _ =>
              (Lower.follows_lift (hhelper _)).bind fun _ =>
                Lower.follows_lift (Emit.follows_call ..)
      | setItem a indices value start count =>
          exact (Lower.follows_ofExcept _).bind fun _ => (Lower.follows_ofExcept _).bind fun _ =>
            (Lower.follows_ofExcept _).bind fun _ => (Lower.follows_itemPointer ..).bind fun _ =>
              (Emit.follows_store ..).bind fun _ => Emit.follows_pure _

end SpmdArrays.Lowering
