import Mathlib.Algebra.Order.BigOperators.Group.List
import SpmdArrays.Proofs.Store.Odometer

/-!
The cells of a slab. Positions below the counts are listed row by row, and the flat
index of a position is its number in the list of all positions of the array. As long
as no beginning of the extents has a product that leaves the machine's range, the
arithmetic of a slab that lies inside the array is exact, and the cells of its positions
are listed in their order. A slab from the origin that is as large as the array has all
cells. Wherever a slab begins, the cells listed for it are cells of the array, and none is
listed twice.
-/

namespace SpmdArrays

/-- As many doubles as this do not fit in the address space. -/
def doublesBound : Nat := 1152921504606846976

theorem doublesBound_eq : doublesBound = 1152921504606846976 := rfl

/-- No beginning of the extents has a product that is too large for the address space. -/
def Addressable (shape : List Nat) : Prop := ∀ k, (shape.take k).prod < doublesBound

theorem Addressable.prod_lt {shape : List Nat} (h : Addressable shape) :
    shape.prod < doublesBound := by
  simpa using h shape.length

theorem addressable_pair {m n : Nat} (hm : m < doublesBound) (hmn : m * n < doublesBound) :
    Addressable [m, n] := by
  intro k
  rcases k with - | - | k
  · simp [doublesBound_eq]
  · simpa using hm
  · simpa using hmn

/-- No beginning of the extents has a product that leaves the machine's range, so that
the number of every position is a machine word. -/
def Indexable (shape : List Nat) : Prop := ∀ k, Word.u64.Fits (shape.take k).prod

theorem Addressable.indexable {shape : List Nat} (h : Addressable shape) : Indexable shape := by
  intro k
  have hk := h k
  rw [doublesBound_eq] at hk
  exact Word.fits_u64.mpr (by omega)

abbrev InShape (s shape : List Nat) : Prop := List.Forall₂ (· ≤ ·) s shape

theorem InShape.trans {s t shape : List Nat} (h : InShape s t) (ht : InShape t shape) :
    InShape s shape := by
  induction h generalizing shape with
  | nil => exact ht
  | cons hle _ ih =>
      cases ht with
      | cons hle' hrest => exact .cons (Nat.le_trans hle hle') (ih hrest)

theorem InShape.prod_take_le {s shape : List Nat} (h : InShape s shape) (k : Nat) :
    (s.take k).prod ≤ (shape.take k).prod :=
  (List.forall₂_take k h).prod_le_prod'

theorem InShape.addressable {s shape : List Nat} (h : InShape s shape)
    (hshape : Addressable shape) : Addressable s :=
  fun k => Nat.lt_of_le_of_lt (h.prod_take_le k) (hshape k)

namespace Word

theorem foldlM_mul_of_fits {w : Word} {acc : Nat} {factors : List Nat}
    (h : ∀ k, w.Fits ((acc * (factors.take k).prod : Nat) : Int)) :
    (factors.map Int.ofNat).foldlM w.mul (acc : Int) = .ok ((acc * factors.prod : Nat) : Int) := by
  induction factors generalizing acc with
  | nil => simp [pure, Except.pure]
  | cons x xs ih =>
      have hmul : (acc : Int) * Int.ofNat x = (acc * x : Nat) := by simp
      have hfirst : w.Fits ((acc * x : Nat) : Int) := by simpa using h 1
      rw [List.map_cons, List.foldlM_cons, mul_of_fits (hmul ▸ hfirst), ok_bind, hmul, ih]
      · rw [List.prod_cons, Nat.mul_assoc]
      · intro k
        simpa [Nat.mul_assoc] using h (k + 1)

theorem product_of_addressable {w : Word} (hlo : w.lo ≤ 0) (hhi : doublesBound ≤ w.hi)
    {shape : List Nat} (h : Addressable shape) :
    w.product (shape.map Int.ofNat) = .ok (shape.prod : Int) := by
  have hfits : ∀ k, w.Fits ((1 * (shape.take k).prod : Nat) : Int) := by
    intro k
    have := h k
    rw [Nat.one_mul]
    exact ⟨by omega, by omega⟩
  simpa [product] using foldlM_mul_of_fits hfits

theorem foldlM_mul_ok {w : Word} {acc : Nat} {factors : List Nat} {n : Int}
    (h : (factors.map Int.ofNat).foldlM w.mul (acc : Int) = .ok n) :
    n = (acc * factors.prod : Nat) := by
  induction factors generalizing acc with
  | nil =>
      cases h
      simp
  | cons x xs ih =>
      rw [List.map_cons, List.foldlM_cons] at h
      obtain ⟨first, hfirst, hrest⟩ := exists_of_bind_ok h
      obtain ⟨-, rfl⟩ := check_eq_ok_iff.mp hfirst
      have hmul : (acc : Int) * Int.ofNat x = (acc * x : Nat) := by simp
      rw [hmul] at hrest
      rw [ih hrest, List.prod_cons, Nat.mul_assoc]

theorem product_ok {w : Word} {factors : List Nat} {n : Int}
    (h : w.product (factors.map Int.ofNat) = .ok n) : n = factors.prod := by
  simpa using @foldlM_mul_ok w 1 factors n h

end Word

theorem reserve_of_addressable {shape : List Nat} (h : Addressable shape) :
    reserve 8 (shape.prod : Int) = .ok () := by
  have hlt := h.prod_lt
  rw [doublesBound_eq] at hlt
  apply if_pos
  rw [maxBytes_eq]
  omega

namespace Slab

/-! ### Indices -/

theorem Below.of_inShape {s shape position : List Nat} (h : Below s position)
    (hs : InShape s shape) : Below shape position := by
  induction h generalizing shape with
  | nil =>
      cases hs
      exact .nil
  | cons hi _ ih =>
      cases hs with
      | cons hle hrest => exact .cons (Nat.lt_of_lt_of_le hi hle) (ih hrest)

abbrev shifted (corner position : List Nat) : List Nat := List.zipWith (· + ·) corner position

theorem Below.shifted {corner counts shape position : List Nat}
    (hlen : corner.length = counts.length) (h : Below counts position)
    (hin : InShape (shifted corner counts) shape) : Below shape (shifted corner position) := by
  induction h generalizing corner shape with
  | nil =>
      obtain rfl := List.length_eq_zero_iff.mp hlen
      cases hin
      exact .nil
  | cons hi _ ih =>
      match corner, hlen with
      | s :: ss, hlen =>
          cases hin with
          | cons hle hrest =>
              exact .cons (Nat.lt_of_lt_of_le (Nat.add_lt_add_left hi s) hle)
                (ih (by simpa using hlen) hrest)

theorem Signed.of_inShape {s t : List Nat} (ht : Signed t) (h : InShape s t) : Signed s := by
  induction h with
  | nil => exact ht
  | @cons m n _ _ hle _ ih =>
      obtain ⟨hn, hrest⟩ := List.forall_mem_cons.mp ht
      rw [Word.fits_i64] at hn
      exact List.forall_mem_cons.mpr ⟨Word.fits_i64.mpr (by omega), ih hrest⟩

theorem inShape_shifted {corner counts position : List Nat}
    (hlen : corner.length = counts.length) (h : Below counts position) :
    InShape (shifted corner position) (shifted corner counts) := by
  induction h generalizing corner with
  | nil => simp
  | cons hi _ ih =>
      match corner, hlen with
      | s :: ss, hlen => exact .cons (Nat.add_le_add_left hi.le s) (ih (by simpa using hlen))

theorem inShape_shifted_right {corner counts : List Nat} (hlen : corner.length = counts.length) :
    InShape counts (shifted corner counts) := by
  induction corner generalizing counts with
  | nil =>
      obtain rfl := List.length_eq_zero_iff.mp hlen.symm
      exact .nil
  | cons s ss ih =>
      match counts, hlen with
      | c :: cs, hlen => exact .cons (Nat.le_add_left c s) (ih (by simpa using hlen))

/-- The index of a position of the slab is the number of its cell, from any row on. `r` is
the product of the extents in front. -/
theorem foldlM_flatIndex {shape corner position : List Nat} {a r : Nat}
    (h : Below shape (shifted corner position)) (hsigned : Signed (shifted corner position))
    (ha : a < r) (hr : ∀ k, Word.u64.Fits (r * (shape.take k).prod : Nat)) :
    (shape.zip ((corner.map Int.ofNat).zip (position.map Int.ofNat))).foldlM
        (fun (acc : Int) (d : Nat × Int × Int) => do
          Word.u64.add (← Word.u64.mul acc d.1) (← Word.i64.add d.2.1 d.2.2)) (a : Int) =
      .ok ((a * shape.prod + flat shape (shifted corner position) : Nat) : Int) := by
  induction shape generalizing corner position a r with
  | nil => simp [flat, pure, Except.pure]
  | cons e es ih =>
      obtain - | ⟨s, ss⟩ := corner
      · cases h
      obtain - | ⟨i, is⟩ := position
      · cases h
      obtain ⟨hi, hrest⟩ := List.forall₂_cons.mp h
      replace hi : s + i < e := hi
      obtain ⟨hsum, hsigned⟩ := List.forall_mem_cons.mp hsigned
      have hfirst : Word.u64.Fits (r * e : Nat) := by simpa using hr 1
      rw [Word.fits_u64] at hfirst
      have hnext : (a + 1) * e ≤ r * e := Nat.mul_le_mul_right e ha
      rw [Nat.add_mul, Nat.one_mul] at hnext
      have hmul : (a : Int) * (e : Int) = (a * e : Nat) := by simp
      have hcell : Int.ofNat s + Int.ofNat i = (s + i : Nat) := by simp
      have hadd : ((a * e : Nat) : Int) + (s + i : Nat) = (a * e + (s + i) : Nat) := by simp
      rw [List.map_cons, List.map_cons, List.zip_cons_cons, List.zip_cons_cons,
        List.foldlM_cons]
      simp only
      rw [Word.mul_of_fits (by rw [Word.fits_u64, hmul]; omega), ok_bind, hmul,
        Word.add_of_fits (w := Word.i64) (by rw [hcell]; exact hsum), ok_bind, hcell,
        Word.add_of_fits (by rw [Word.fits_u64, hadd]; omega), ok_bind, hadd,
        ih (a := a * e + (s + i)) (r := r * e) hrest hsigned (by omega)]
      · simp only [shifted, List.zipWith_cons_cons, flat, List.prod_cons]
        rw [Nat.add_mul, Nat.mul_assoc, Nat.add_assoc]
      · intro k
        simpa [Nat.mul_assoc] using hr (k + 1)

theorem flatIndex_eq {shape corner position : List Nat}
    (h : Below shape (shifted corner position)) (hsigned : Signed (shifted corner position))
    (hshape : Indexable shape) :
    flatIndex shape (corner.map Int.ofNat) (position.map Int.ofNat) =
      .ok (flat shape (shifted corner position) : Int) := by
  have := foldlM_flatIndex h hsigned (a := 0) (r := 1) (by omega) fun k => by
    rw [Nat.one_mul]
    exact hshape k
  simpa [flatIndex] using this

theorem mapM_of_ok {α β : Type} {g : α → Except Fault β} {f : α → β} {xs : List α}
    (h : ∀ x ∈ xs, g x = .ok (f x)) : xs.mapM g = .ok (xs.map f) := by
  induction xs with
  | nil => rfl
  | cons x xs ih =>
      rw [List.mapM_cons, h x (by simp), ok_bind, ih fun y hy => h y (by simp [hy]), ok_bind]
      rfl

theorem inside_true {shape corner counts : List Nat} (hcorner : corner.length = shape.length)
    (hcounts : counts.length = shape.length)
    (h : inside shape (corner.map Int.ofNat) (counts.map Int.ofNat) = .ok true) :
    InShape (shifted corner counts) shape ∧ Signed (shifted corner counts) := by
  induction shape generalizing corner counts with
  | nil =>
      obtain rfl := List.length_eq_zero_iff.mp hcorner
      exact ⟨.nil, List.forall_mem_nil _⟩
  | cons e es ih =>
      match corner, counts, hcorner, hcounts with
      | s :: ss, c :: cs, hcorner, hcounts =>
          rw [List.map_cons, List.map_cons, inside, if_neg (by simp)] at h
          obtain ⟨stop, hstop, hrest⟩ := exists_of_bind_ok h
          obtain ⟨hfits, rfl⟩ := Word.check_eq_ok_iff.mp hstop
          split at hrest
          · next hle =>
              obtain ⟨hin, hsigned⟩ := ih (by simpa using hcorner) (by simpa using hcounts) hrest
              have hsum : Int.ofNat s + Int.ofNat c = (s + c : Nat) := by simp
              rw [hsum] at hfits hle
              exact ⟨.cons (Int.ofNat_le.mp hle) hin, List.forall_mem_cons.mpr ⟨hfits, hsigned⟩⟩
          · cases hrest

/-- A slab that is found to lie inside the array has the cells of its positions. -/
theorem indices_of_inside {shape corner counts : List Nat} {stride : Int}
    (hcorner : corner.length = shape.length) (hcounts : counts.length = shape.length)
    (hstride : stride ≤ 1)
    (hinside : inside shape (corner.map Int.ofNat) (counts.map Int.ofNat) = .ok true)
    (hshape : Indexable shape) (hroom : Addressable counts) :
    indices shape (corner.map Int.ofNat) (counts.map Int.ofNat) stride =
      .ok (some ((positions counts).map fun p => flat shape (shifted corner p))) := by
  obtain ⟨hin, hsigned⟩ := inside_true hcorner hcounts hinside
  have hlen := hcorner.trans hcounts.symm
  unfold indices
  have hok : ¬ ((corner.map Int.ofNat).length ≠ shape.length ∨
      (counts.map Int.ofNat).length ≠ shape.length ∨ 1 < stride) := by
    simp only [List.length_map]
    omega
  rw [if_neg hok, hinside, ok_bind]
  simp only [Bool.not_true, Bool.false_eq_true, if_false]
  rw [Word.product_of_addressable (by decide) (by decide) hroom, ok_bind,
    reserve_of_addressable hroom, ok_bind]
  split
  · next hzero =>
      have hnone : (positions counts).length = 0 := by
        rw [length_positions]
        exact Int.ofNat_eq_zero.mp hzero
      rw [List.length_eq_zero_iff.mp hnone]
      rfl
  · next hne =>
      have hcell : ∀ p ∈ positions counts,
          (flatIndex shape (corner.map Int.ofNat) (p.map Int.ofNat)).map Int.toNat =
            .ok (flat shape (shifted corner p)) := by
        intro p hp
        have hbelow := mem_positions.mp hp
        rw [flatIndex_eq (hbelow.shifted hlen hin)
          (hsigned.of_inShape (inShape_shifted hlen hbelow)) hshape]
        rfl
      rw [indicesFrom_zeros shape _ (hsigned.of_inShape (inShape_shifted_right hlen))
        (by exact_mod_cast hne), mapM_of_ok hcell, ok_bind]
      rfl

/-! ### Slabs from the origin -/

def announced (n : Nat) : Int := Word.wrapSigned 64 (Int.ofNat n)

theorem announced_eq (n : Nat) : announced n = Int.bmod n 18446744073709551616 := rfl

theorem announced_of_fits {n : Nat} (h : Word.i64.Fits n) : announced n = n := by
  rw [Word.fits_i64] at h
  rw [announced_eq, Int.bmod_def]
  split <;> omega

theorem announced_neg {n : Nat} (h : ¬ Word.i64.Fits n) (hn : Word.u64.Fits n) :
    announced n < 0 := by
  rw [Word.fits_i64] at h
  rw [Word.fits_u64] at hn
  rw [announced_eq, Int.bmod_def]
  split <;> omega

abbrev Unsigned (s : List Nat) : Prop := ∀ n ∈ s, Word.u64.Fits n

theorem Signed.unsigned {s : List Nat} (h : Signed s) : Unsigned s := by
  intro n hn
  have hsigned := Word.fits_i64.mp (h n hn)
  exact Word.fits_u64.mpr (by omega)

theorem signed_cons {n : Nat} {ns : List Nat} :
    Signed (n :: ns) ↔ Word.i64.Fits n ∧ Signed ns := List.forall_mem_cons

theorem map_announced {s : List Nat} (h : Signed s) : s.map announced = s.map Int.ofNat :=
  List.map_congr_left fun n hn => announced_of_fits (h n hn)

/-- A slab from the origin lies inside the array if no count is greater than the
extent of its dimension. A count that is announced as a negative one lies nowhere. -/
theorem inside_announced {s shape : List Nat} (hlen : s.length = shape.length)
    (hs : Unsigned s) :
    inside shape (List.replicate s.length 0) (s.map announced) =
      .ok (decide (InShape s shape ∧ Signed s)) := by
  induction shape generalizing s with
  | nil =>
      obtain rfl := List.length_eq_zero_iff.mp hlen
      rfl
  | cons e es ih =>
      cases s with
      | nil => simp at hlen
      | cons n ns =>
          have hn := hs n (by simp)
          have hrest := ih (s := ns) (by simpa using hlen) (fun m hm => hs m (by simp [hm]))
          rw [List.length_cons, List.replicate_succ, List.map_cons, inside]
          by_cases hsmall : Word.i64.Fits n
          · rw [announced_of_fits hsmall, if_neg (by omega),
              Word.add_of_fits (by rwa [Int.zero_add]), ok_bind, hrest]
            by_cases hle : n ≤ e
            · rw [if_pos (by omega)]
              simp [InShape, signed_cons, hle, hsmall]
            · rw [if_neg (by omega)]
              simp [InShape, hle]
          · have hneg := announced_neg hsmall hn
            rw [if_pos (.inr hneg)]
            simp [signed_cons, hsmall]

theorem shifted_origin {position : List Nat} {n : Nat} (h : position.length = n) :
    shifted (List.replicate n 0) position = position := by
  induction position generalizing n with
  | nil => simp
  | cons i is ih =>
      subst h
      rw [List.length_cons, List.replicate_succ]
      exact congrArg₂ List.cons (Nat.zero_add i) (ih rfl)

theorem indices_announced {s shape : List Nat} (hshape : Addressable shape)
    (hs : Unsigned s) :
    indices shape (List.replicate s.length 0) (s.map announced) 0 =
      .ok (if InShape s shape ∧ Signed s then some ((positions s).map (flat shape)) else none) := by
  by_cases hlen : s.length = shape.length
  · have hinside := inside_announced hlen hs
    by_cases h : InShape s shape ∧ Signed s
    · have hzeros : (List.replicate s.length 0).map Int.ofNat = List.replicate s.length 0 := by simp
      rw [decide_eq_true h, map_announced h.2, ← hzeros] at hinside
      have hcells : ((positions s).map fun p =>
          flat shape (shifted (List.replicate s.length 0) p)) =
          (positions s).map (flat shape) :=
        List.map_congr_left fun p hp => by rw [shifted_origin (mem_positions.mp hp).length_eq]
      rw [if_pos h, map_announced h.2, ← hzeros, ← hcells]
      exact indices_of_inside (by simp [hlen]) hlen (by decide) hinside hshape.indexable
        (h.1.addressable hshape)
    · unfold indices
      rw [if_neg (by simp [hlen]), hinside, ok_bind, if_neg h]
      simp only [decide_eq_false h, Bool.not_false, if_true]
      rfl
  · unfold indices
    rw [if_pos (by simp [hlen]), if_neg fun h => hlen h.1.length_eq]

/-! ### Slabs from anywhere

A slab that was listed lies inside the array, and all arithmetic on the way to its
cells was exact: what does not fit in a machine word is a fault. So nothing has to
be known of the extents. -/

theorem inside_ok {shape : List Nat} {start count : List Int} (hstart : start.length = shape.length)
    (hcount : count.length = shape.length) (h : inside shape start count = .ok true) :
    ∃ corner counts : List Nat, start = corner.map Int.ofNat ∧ count = counts.map Int.ofNat := by
  induction shape generalizing start count with
  | nil =>
      obtain rfl := List.length_eq_zero_iff.mp hstart
      obtain rfl := List.length_eq_zero_iff.mp hcount
      exact ⟨[], [], rfl, rfl⟩
  | cons e es ih =>
      match start, count, hstart, hcount with
      | s :: ss, c :: cs, hstart, hcount =>
          rw [inside] at h
          split at h
          · cases h
          · next hsigns =>
              obtain ⟨stop, -, hrest⟩ := exists_of_bind_ok h
              split at hrest
              · obtain ⟨corner, counts, rfl, rfl⟩ :=
                  ih (by simpa using hstart) (by simpa using hcount) hrest
                refine ⟨s.toNat :: corner, c.toNat :: counts, ?_, ?_⟩ <;>
                  simp only [List.map_cons, Int.ofNat_eq_natCast, List.cons.injEq, and_true] <;>
                  omega
              · cases hrest

theorem shifted_inj {corner p q : List Nat} (hp : p.length = corner.length)
    (hq : q.length = corner.length) (h : shifted corner p = shifted corner q) : p = q := by
  induction corner generalizing p q with
  | nil =>
      obtain rfl := List.length_eq_zero_iff.mp hp
      obtain rfl := List.length_eq_zero_iff.mp hq
      rfl
  | cons s ss ih =>
      match p, q, hp, hq with
      | i :: is, j :: js, hp, hq =>
          simp only [shifted, List.zipWith_cons_cons, List.cons.injEq] at h
          rw [ih (by simpa using hp) (by simpa using hq) h.2, Nat.add_left_cancel h.1]

theorem foldlM_flatIndex_ok {shape corner position : List Nat} {a : Nat} {n : Int}
    (hcorner : corner.length = shape.length) (hposition : position.length = shape.length)
    (h : (shape.zip ((corner.map Int.ofNat).zip (position.map Int.ofNat))).foldlM
        (fun (acc : Int) (d : Nat × Int × Int) => do
          Word.u64.add (← Word.u64.mul acc d.1) (← Word.i64.add d.2.1 d.2.2)) (a : Int) = .ok n) :
    n = (a * shape.prod + flat shape (shifted corner position) : Nat) := by
  induction shape generalizing corner position a with
  | nil =>
      obtain rfl := List.length_eq_zero_iff.mp hcorner
      cases h
      simp [flat]
  | cons e es ih =>
      obtain - | ⟨s, ss⟩ := corner
      · cases hcorner
      obtain - | ⟨i, is⟩ := position
      · cases hposition
      rw [List.map_cons, List.map_cons, List.zip_cons_cons, List.zip_cons_cons,
        List.foldlM_cons] at h
      obtain ⟨next, hnext, hrest⟩ := exists_of_bind_ok h
      obtain ⟨row, hrow, hcell⟩ := exists_of_bind_ok hnext
      obtain ⟨cell, hsum, hadd⟩ := exists_of_bind_ok hcell
      obtain ⟨-, rfl⟩ := Word.check_eq_ok_iff.mp hrow
      obtain ⟨-, rfl⟩ := Word.check_eq_ok_iff.mp hsum
      obtain ⟨-, rfl⟩ := Word.check_eq_ok_iff.mp hadd
      have hacc : (a : Int) * (e : Int) + (Int.ofNat s + Int.ofNat i) =
          (a * e + (s + i) : Nat) := by simp
      simp only [hacc] at hrest
      rw [ih (by simpa using hcorner) (by simpa using hposition) hrest]
      simp only [shifted, List.zipWith_cons_cons, flat, List.prod_cons]
      rw [Nat.add_mul, Nat.mul_assoc, Nat.add_assoc]

theorem flatIndex_ok {shape corner position : List Nat} {n : Nat}
    (hcorner : corner.length = shape.length) (hposition : position.length = shape.length)
    (h : (flatIndex shape (corner.map Int.ofNat) (position.map Int.ofNat)).map Int.toNat = .ok n) :
    n = flat shape (shifted corner position) := by
  cases hcell : flatIndex shape (corner.map Int.ofNat) (position.map Int.ofNat) with
  | error fault =>
      rw [hcell] at h
      cases h
  | ok cell =>
      rw [hcell] at h
      cases h
      rw [foldlM_flatIndex_ok (a := 0) hcorner hposition hcell]
      simp

theorem mapM_ok {α β : Type} {g : α → Except Fault β} {f : α → β} {xs : List α} {ys : List β}
    (h : xs.mapM g = .ok ys) (hg : ∀ x ∈ xs, ∀ y, g x = .ok y → y = f x) : ys = xs.map f := by
  induction xs generalizing ys with
  | nil =>
      cases h
      rfl
  | cons x xs ih =>
      rw [List.mapM_cons] at h
      obtain ⟨y, hy, h₁⟩ := exists_of_bind_ok h
      obtain ⟨rest, hrest, h₂⟩ := exists_of_bind_ok h₁
      cases h₂
      rw [List.map_cons, hg x (by simp) y hy, ih hrest fun z hz => hg z (by simp [hz])]

/-- The cells of a slab that was listed are those of its positions. -/
theorem indices_ok {shape cells : List Nat} {start count : List Int} {stride : Int}
    (h : indices shape start count stride = .ok (some cells)) :
    ∃ corner counts : List Nat, start = corner.map Int.ofNat ∧ count = counts.map Int.ofNat ∧
      corner.length = counts.length ∧ InShape (shifted corner counts) shape ∧
      cells = (positions counts).map fun p => flat shape (shifted corner p) := by
  unfold indices at h
  split at h
  · cases h
  · next hlens =>
      simp only [not_or, not_not] at hlens
      obtain ⟨within, hwithin, h₁⟩ := exists_of_bind_ok h
      cases within with
      | false => cases h₁
      | true =>
          obtain ⟨corner, counts, rfl, rfl⟩ := inside_ok hlens.1 hlens.2.1 hwithin
          simp only [List.length_map] at hlens
          have hlen := hlens.1.trans hlens.2.1.symm
          obtain ⟨hin, hsigned⟩ := inside_true hlens.1 hlens.2.1 hwithin
          refine ⟨corner, counts, rfl, rfl, hlen, hin, ?_⟩
          obtain ⟨total, htotal, h₂⟩ := exists_of_bind_ok h₁
          obtain ⟨-, -, h₃⟩ := exists_of_bind_ok h₂
          have htotal := Word.product_ok htotal
          split at h₃
          · next hzero =>
              have hnone : (positions counts).length = 0 := by
                rw [length_positions]
                omega
              cases h₃
              rw [List.length_eq_zero_iff.mp hnone, List.map_nil]
          · next hne =>
              obtain ⟨cells', hcells, h₄⟩ := exists_of_bind_ok h₃
              cases h₄
              rw [indicesFrom_zeros shape _ (hsigned.of_inShape (inShape_shifted_right hlen))
                (by omega)] at hcells
              refine mapM_ok hcells fun p hp n hn => flatIndex_ok hlens.1 ?_ hn
              rw [(mem_positions.mp hp).length_eq, hlens.2.1]

theorem lt_of_mem_indices {shape cells : List Nat} {start count : List Int} {stride : Int}
    (h : indices shape start count stride = .ok (some cells)) {i : Nat} (hi : i ∈ cells) :
    i < shape.prod := by
  obtain ⟨corner, counts, -, -, hlen, hin, rfl⟩ := indices_ok h
  obtain ⟨p, hp, rfl⟩ := List.mem_map.mp hi
  exact flat_lt ((mem_positions.mp hp).shifted hlen hin)

/-- No cell is listed twice. -/
theorem nodup_indices {shape cells : List Nat} {start count : List Int} {stride : Int}
    (h : indices shape start count stride = .ok (some cells)) : cells.Nodup := by
  obtain ⟨corner, counts, -, -, hlen, hin, rfl⟩ := indices_ok h
  refine (nodup_positions counts).map_on fun p hp q hq hpq => ?_
  have hp := mem_positions.mp hp
  have hq := mem_positions.mp hq
  exact shifted_inj (hp.length_eq.trans hlen.symm) (hq.length_eq.trans hlen.symm)
    (flat_inj (hp.shifted hlen hin) (hq.shifted hlen hin) hpq)

end Slab

end SpmdArrays
