import SpmdArrays.Fault

/-!
Slabs of a row-major array. A slab is given by a start and a count in every
dimension; its cells are listed with the last dimension running fastest, each
as an index into the flat data. An odometer goes from one position to the next,
carrying outwards, until it is through. All arithmetic is on machine words.
-/

namespace SpmdArrays.Slab

def inside : List Nat → List Int → List Int → Except Fault Bool
  | e :: es, s :: ss, c :: cs =>
    if s < 0 ∨ c < 0 then .ok false
    else do
      let stop ← Word.i64.add s c
      if stop ≤ e then inside es ss cs else .ok false
  | _, _, _ => .ok true

/-- The next position, one further in the innermost dimension. The dimensions are listed
from the innermost outwards: one that is through starts again at zero and carries to the
dimension outside of it. Nothing is next when the outermost dimension is through. -/
def advance : (count position : List Int) → Except Fault (Option (List Int))
  | c :: cs, p :: ps => do
    let next ← Word.i64.add p 1
    if next < c then return some (next :: ps)
    else return (← advance cs ps).map (0 :: ·)
  | _, _ => .ok none

/-- What is left to go through; every advance makes it smaller. -/
def left : (count position : List Int) → Nat
  | c :: cs, p :: ps => (c - p).toNat + (c.toNat + 1) * left cs ps
  | _, _ => 0

theorem left_advance {count position next : List Int}
    (h : advance count position = .ok (some next)) : left count next < left count position := by
  induction count, position using advance.induct generalizing next with
  | case1 c cs p ps ih =>
      rw [advance] at h
      obtain ⟨q, hq, h₁⟩ := exists_of_bind_ok h
      obtain ⟨-, rfl⟩ := Word.check_eq_ok_iff.mp hq
      split at h₁
      · cases h₁
        simp only [left]
        omega
      · obtain ⟨carried, hcarried, h₂⟩ := exists_of_bind_ok h₁
        cases carried with
        | none => cases h₂
        | some outer =>
            cases h₂
            have hmul := Nat.mul_le_mul_left (c.toNat + 1) (ih hcarried)
            rw [Nat.succ_eq_add_one, Nat.mul_add] at hmul
            simp only [left]
            omega
  | case2 count position hshort =>
      rw [advance] at h
      · cases h
      · exact hshort

/-- The flat index of a position of the slab, from the outermost dimension inwards. -/
def flatIndex (shape : List Nat) (start position : List Int) : Except Fault Int :=
  (shape.zip (start.zip position)).foldlM
    (fun acc d => do Word.u64.add (← Word.u64.mul acc d.1) (← Word.i64.add d.2.1 d.2.2)) 0

/-- The flat indices from a position on, as far as the positions go. The position has its
innermost dimension first. -/
def indicesFrom (shape : List Nat) (start count position : List Int) : Except Fault (List Nat) := do
  let cell ← flatIndex shape start position.reverse
  match _h : advance count.reverse position with
  | .error fault => .error fault
  | .ok none => return [cell.toNat]
  | .ok (some next) => return cell.toNat :: (← indicesFrom shape start count next)
termination_by left count.reverse position
decreasing_by exact left_advance _h

/-- The flat indices of a slab in row-major order, or `none` if it does not lie
inside the array. Strides above one are not served. -/
def indices (shape : List Nat) (start count : List Int) (stride : Int) :
    Except Fault (Option (List Nat)) :=
  if start.length ≠ shape.length ∨ count.length ≠ shape.length ∨ 1 < stride then .ok none
  else do
    if !(← inside shape start count) then return none
    let total ← Word.i64.product count
    reserve 8 total
    if total = 0 then return some []
    return some (← indicesFrom shape start count (List.replicate count.length 0))

end SpmdArrays.Slab
