import Mathlib.Algebra.BigOperators.Group.List.Basic
import Mathlib.Data.List.Forall2
import Mathlib.Data.List.Nodup
import SpmdArrays.Store.Slab

/-!
The odometer lists every position once. A position has a number in the list of all
positions below the counts, the last dimension running fastest. An advance takes a
position to the one with the next number, whatever it carries, and there is no next
position only at the end of the list. So the loop, which begins at zero, goes through the
list from its first position to its last.
-/

namespace SpmdArrays.Slab

/-! ### Positions -/

/-- All positions below the counts, the last dimension fastest. -/
def positions : List Nat → List (List Nat)
  | [] => [[]]
  | c :: cs => (List.range c).flatMap fun i => (positions cs).map (i :: ·)

/-- The number of a position in the list of all positions, the last dimension
running fastest. -/
def flat : List Nat → List Nat → Nat
  | _ :: es, i :: is => i * es.prod + flat es is
  | _, _ => 0

abbrev Below (counts position : List Nat) : Prop := List.Forall₂ (· < ·) position counts

theorem mem_positions {counts position : List Nat} :
    position ∈ positions counts ↔ Below counts position := by
  induction counts generalizing position with
  | nil => simp [positions, Below]
  | cons c cs ih =>
      cases position with
      | nil => simp [positions, Below]
      | cons i is => simp [positions, Below, ih]

theorem length_positions (counts : List Nat) : (positions counts).length = counts.prod := by
  induction counts with
  | nil => rfl
  | cons c cs ih => simp [positions, ih, List.length_flatMap]

theorem flat_lt {shape position : List Nat} (h : Below shape position) :
    flat shape position < shape.prod := by
  induction h with
  | nil => simp [flat]
  | @cons i e is es hi _ ih =>
      have hnext : (i + 1) * es.prod ≤ e * es.prod := Nat.mul_le_mul_right _ hi
      rw [Nat.add_mul] at hnext
      rw [flat, List.prod_cons]
      omega

theorem flat_inj {shape p q : List Nat} (hp : Below shape p) (hq : Below shape q)
    (h : flat shape p = flat shape q) : p = q := by
  induction hp generalizing q with
  | nil =>
      cases hq
      rfl
  | @cons i e is es _ his ih =>
      cases hq with
      | @cons j _ js _ _ hjs =>
          have hi := flat_lt his
          have hj := flat_lt hjs
          simp only [flat] at h
          -- quotient and remainder by the size of a row
          have hdiv : i = j := by
            have hpos : 0 < es.prod := Nat.zero_lt_of_lt hi
            calc i = (i * es.prod + flat es is) / es.prod := by
                  rw [Nat.mul_comm, Nat.mul_add_div hpos, Nat.div_eq_of_lt hi, Nat.add_zero]
              _ = (j * es.prod + flat es js) / es.prod := by rw [h]
              _ = j := by rw [Nat.mul_comm, Nat.mul_add_div hpos, Nat.div_eq_of_lt hj, Nat.add_zero]
          subst hdiv
          rw [ih hjs (by omega)]

theorem range_mul (c n : Nat) :
    ((List.range c).flatMap fun i => (List.range n).map (i * n + ·)) = List.range (c * n) := by
  induction c with
  | zero => simp
  | succ c ih =>
      rw [List.range_succ, List.flatMap_append, ih, List.flatMap_singleton, Nat.succ_mul,
        List.range_add]

theorem map_flat_positions (shape : List Nat) :
    (positions shape).map (flat shape) = List.range shape.prod := by
  induction shape with
  | nil => rfl
  | cons e es ih =>
      have hrow : ∀ i, (((positions es).map (i :: ·)).map (flat (e :: es))) =
          (List.range es.prod).map (i * es.prod + ·) := by
        intro i
        rw [← ih, List.map_map, List.map_map]
        rfl
      rw [positions, List.map_flatMap, List.prod_cons, ← range_mul]
      congr 1
      funext i
      exact hrow i

/-- A position stands where its number says. -/
theorem getElem?_positions {counts position : List Nat} (h : Below counts position) :
    (positions counts)[flat counts position]? = some position := by
  have hlt : flat counts position < (positions counts).length := by
    rw [length_positions]
    exact flat_lt h
  have hget : ((positions counts).map (flat counts))[flat counts position]? =
      some (flat counts position) := by
    rw [map_flat_positions, List.getElem?_range (flat_lt h)]
  rw [List.getElem?_map, List.getElem?_eq_getElem hlt, Option.map_some, Option.some.injEq] at hget
  have hbelow := mem_positions.mp (List.getElem_mem hlt)
  rw [List.getElem?_eq_getElem hlt, flat_inj hbelow h hget]

theorem nodup_positions (counts : List Nat) : (positions counts).Nodup := by
  apply List.Nodup.of_map (flat counts)
  rw [map_flat_positions]
  exact List.nodup_range

/-! ### One advance -/

/-- The number of a position that has its innermost dimension first. -/
def number : List Nat → List Nat → Nat
  | c :: cs, p :: ps => p + c * number cs ps
  | _, _ => 0

theorem flat_concat {shape position : List Nat} (h : position.length = shape.length) (e i : Nat) :
    flat (shape ++ [e]) (position ++ [i]) = flat shape position * e + i := by
  induction shape generalizing position with
  | nil =>
      obtain rfl := List.length_eq_zero_iff.mp h
      simp [flat]
  | cons e' es ih =>
      cases position with
      | nil => cases h
      | cons j js =>
          simp only [List.cons_append, flat, ih (by simpa using h), List.prod_append,
            List.prod_singleton]
          rw [Nat.add_mul, Nat.mul_assoc, Nat.add_assoc]

theorem number_reverse {counts position : List Nat} (h : position.length = counts.length) :
    number counts.reverse position.reverse = flat counts position := by
  obtain ⟨cs, rfl⟩ : ∃ cs : List Nat, counts = cs.reverse := ⟨_, (List.reverse_reverse _).symm⟩
  obtain ⟨ps, rfl⟩ : ∃ ps : List Nat, position = ps.reverse := ⟨_, (List.reverse_reverse _).symm⟩
  rw [List.reverse_reverse, List.reverse_reverse]
  simp only [List.length_reverse] at h
  induction cs generalizing ps with
  | nil => simp [number, flat]
  | cons c cs ih =>
      cases ps with
      | nil => cases h
      | cons p ps =>
          have hlen : ps.length = cs.length := by simpa using h
          rw [List.reverse_cons, List.reverse_cons, flat_concat (by simpa using hlen), number,
            ih ps hlen, Nat.mul_comm, Nat.add_comm]

abbrev Signed (s : List Nat) : Prop := ∀ n ∈ s, Word.i64.Fits n

theorem advance_cons {p c : Nat} (hp : p < c) (hc : Word.i64.Fits c) (cs ps : List Int) :
    advance (Int.ofNat c :: cs) (Int.ofNat p :: ps) =
      if p + 1 < c then .ok (some (Int.ofNat (p + 1) :: ps))
      else (advance cs ps).map (Option.map (0 :: ·)) := by
  have hadd : Word.i64.add (Int.ofNat p) 1 = .ok (Int.ofNat (p + 1)) := by
    rw [Word.fits_i64] at hc
    refine Word.add_of_fits (Word.fits_i64.mpr ?_)
    simp only [Int.ofNat_eq_natCast]
    omega
  rw [advance, hadd, ok_bind]
  by_cases hlt : p + 1 < c
  · have hroom : Int.ofNat (p + 1) < Int.ofNat c := Int.ofNat_lt.mpr hlt
    rw [if_pos hlt, if_pos hroom]
    rfl
  · have hfull : ¬ Int.ofNat (p + 1) < Int.ofNat c := fun h => hlt (Int.ofNat_lt.mp h)
    rw [if_neg hlt, if_neg hfull]
    cases advance cs ps <;> rfl

/-- An advance goes to the position with the next number, if there is one. -/
theorem advance_number {counts position : List Nat} (h : Below counts position)
    (hsigned : Signed counts) :
    (∃ next, advance (counts.map Int.ofNat) (position.map Int.ofNat) =
        .ok (some (next.map Int.ofNat)) ∧
      Below counts next ∧ number counts next = number counts position + 1) ∨
    (advance (counts.map Int.ofNat) (position.map Int.ofNat) = .ok none ∧
      number counts position + 1 = counts.prod) := by
  induction h with
  | nil => exact .inr ⟨rfl, rfl⟩
  | @cons p c ps cs hp hps ih =>
      rw [List.map_cons, List.map_cons, advance_cons hp (hsigned c (by simp))]
      by_cases hlt : p + 1 < c
      · -- the innermost dimension has room
        rw [if_pos hlt]
        refine .inl ⟨(p + 1) :: ps, rfl, .cons hlt hps, ?_⟩
        simp only [number]
        omega
      · -- it is through, and carries
        obtain rfl : c = p + 1 := by omega
        rw [if_neg hlt]
        rcases ih fun c hc => hsigned c (by simp [hc]) with
          ⟨next, hnext, hbelow, hnumber⟩ | ⟨hnone, hlast⟩
        · rw [hnext]
          refine .inl ⟨0 :: next, rfl, .cons (by omega) hbelow, ?_⟩
          simp only [number, hnumber, Nat.mul_add]
          omega
        · rw [hnone]
          refine .inr ⟨rfl, ?_⟩
          rw [List.prod_cons, ← hlast, number, Nat.mul_add]
          omega

/-! ### The loop -/

theorem Below.reverse {counts position : List Nat} (h : Below counts position) :
    Below counts.reverse position.reverse := List.forall₂_reverse_iff.mpr h

theorem advance_positions {counts position : List Nat} (h : Below counts position)
    (hsigned : Signed counts) :
    (∃ next, advance (counts.reverse.map Int.ofNat) (position.reverse.map Int.ofNat) =
        .ok (some (next.reverse.map Int.ofNat)) ∧
      Below counts next ∧ flat counts next = flat counts position + 1) ∨
    (advance (counts.reverse.map Int.ofNat) (position.reverse.map Int.ofNat) = .ok none ∧
      flat counts position + 1 = counts.prod) := by
  have hnumber := number_reverse h.length_eq
  rcases advance_number h.reverse fun c hc => hsigned c (List.mem_reverse.mp hc) with
    ⟨next, hnext, hbelow, hone⟩ | ⟨hnone, hlast⟩
  · have hbelow' : Below counts next.reverse := by simpa using hbelow.reverse
    have hnumber' := number_reverse hbelow'.length_eq
    rw [List.reverse_reverse] at hnumber'
    exact .inl ⟨next.reverse, by rwa [List.reverse_reverse], hbelow', by omega⟩
  · rw [List.prod_reverse] at hlast
    exact .inr ⟨hnone, by omega⟩

theorem indicesFrom_of_last {shape : List Nat} {start count position : List Int}
    (h : advance count.reverse position = .ok none) :
    indicesFrom shape start count position =
      (flatIndex shape start position.reverse).map fun cell => [cell.toNat] := by
  rw [indicesFrom]
  cases flatIndex shape start position.reverse with
  | error fault => rfl
  | ok cell =>
      rw [ok_bind]
      split
      · rename_i hfault
        cases h.symm.trans hfault
      · rfl
      · rename_i hnext
        cases h.symm.trans hnext

theorem indicesFrom_of_advance {shape : List Nat} {start count position next : List Int}
    (h : advance count.reverse position = .ok (some next)) :
    indicesFrom shape start count position = do
      let cell ← flatIndex shape start position.reverse
      return cell.toNat :: (← indicesFrom shape start count next) := by
  rw [indicesFrom]
  cases flatIndex shape start position.reverse with
  | error fault => rfl
  | ok cell =>
      rw [ok_bind, ok_bind]
      split
      · rename_i hfault
        cases h.symm.trans hfault
      · rename_i hlast
        cases h.symm.trans hlast
      · rename_i hnext
        cases h.symm.trans hnext
        rfl

/-- From a position on, the loop lists the cells of the positions from its number on. -/
theorem indicesFrom_eq (shape : List Nat) (start : List Int) {counts : List Nat}
    (hsigned : Signed counts) {position : List Nat} (h : Below counts position) :
    indicesFrom shape start (counts.map Int.ofNat) (position.reverse.map Int.ofNat) =
      ((positions counts).drop (flat counts position)).mapM fun p =>
        (flatIndex shape start (p.map Int.ofNat)).map Int.toNat := by
  generalize hleft : counts.prod - flat counts position = n
  induction n generalizing position with
  | zero =>
      have := flat_lt h
      omega
  | succ n ih =>
      obtain ⟨hlt, hhead⟩ := List.getElem?_eq_some_iff.mp (getElem?_positions h)
      rw [List.drop_eq_getElem_cons hlt, hhead, List.mapM_cons]
      rcases advance_positions h hsigned with ⟨next, hnext, hbelow, hflat⟩ | ⟨hnone, hlast⟩
      · rw [List.map_reverse] at hnext
        rw [indicesFrom_of_advance hnext, ← hflat, ← ih hbelow (by omega), ← List.map_reverse,
          List.reverse_reverse]
        cases flatIndex shape start (position.map Int.ofNat) <;> rfl
      · rw [List.map_reverse] at hnone
        rw [indicesFrom_of_last hnone, List.drop_of_length_le (by rw [length_positions]; omega),
          ← List.map_reverse, List.reverse_reverse]
        cases flatIndex shape start (position.map Int.ofNat) <;> rfl

theorem below_zeros {counts : List Nat} (h : counts.prod ≠ 0) :
    Below counts (List.replicate counts.length 0) := by
  induction counts with
  | nil => exact .nil
  | cons c cs ih =>
      rw [List.prod_cons, Nat.mul_ne_zero_iff] at h
      exact .cons (Nat.pos_of_ne_zero h.1) (ih h.2)

theorem flat_zeros (counts : List Nat) : flat counts (List.replicate counts.length 0) = 0 := by
  induction counts with
  | nil => rfl
  | cons c cs ih => simpa [flat, List.replicate_succ] using ih

/-- The loop lists the cells of all positions. -/
theorem indicesFrom_zeros (shape : List Nat) (start : List Int) {counts : List Nat}
    (hsigned : Signed counts) (hne : counts.prod ≠ 0) :
    indicesFrom shape start (counts.map Int.ofNat)
        (List.replicate (counts.map Int.ofNat).length 0) =
      (positions counts).mapM fun p =>
        (flatIndex shape start (p.map Int.ofNat)).map Int.toNat := by
  have hfrom := indicesFrom_eq shape start hsigned (below_zeros hne)
  rw [flat_zeros, List.drop_zero, List.reverse_replicate, List.map_replicate] at hfrom
  rw [List.length_map]
  exact hfrom

end SpmdArrays.Slab
