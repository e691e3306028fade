import Mathlib.Algebra.BigOperators.Ring.Finset
import SpmdArrays.Proofs.Store.Slabs

/-!
What is listed for a slab. As long as the machine can add a start to its count, the extents
have an index for every cell, and the counts can be multiplied, the listing is complete and
exact. It is refused only where the slab does not lie inside the array. Otherwise it has one
index for every position below the counts, in row-major order, and the indices ascend. The
number of a position is given here once more as a sum over the dimensions, with no recursion
on the way.
-/

namespace SpmdArrays.Slab

/-! ### Numbers of positions -/

/-- The row-major number of a position. Each coordinate counts as many cells as the dimensions
behind it have together. -/
def rowMajor (extents position : List Nat) : Nat :=
  ∑ d ∈ Finset.range extents.length, position.getD d 0 * (extents.drop (d + 1)).prod

theorem flat_eq_rowMajor {extents position : List Nat} (h : position.length = extents.length) :
    flat extents position = rowMajor extents position := by
  induction extents generalizing position with
  | nil => simp [flat, rowMajor]
  | cons e es ih =>
      cases position with
      | nil => cases h
      | cons i is =>
          rw [flat, ih (by simpa using h), rowMajor, rowMajor, List.length_cons,
            Finset.sum_range_succ', Nat.add_comm]
          rfl

theorem rowMajor_inj {shape p q : List Nat} (hp : Below shape p) (hq : Below shape q)
    (h : rowMajor shape p = rowMajor shape q) : p = q := by
  rw [← flat_eq_rowMajor hp.length_eq, ← flat_eq_rowMajor hq.length_eq] at h
  exact flat_inj hp hq h

theorem flat_lt_of_head_lt {e i j : Nat} {es is js : List Nat} (h : i < j) (his : Below es is) :
    flat (e :: es) (i :: is) < flat (e :: es) (j :: js) := by
  have hrow : (i + 1) * es.prod ≤ j * es.prod := Nat.mul_le_mul_right _ h
  have hlt := flat_lt his
  rw [Nat.add_mul] at hrow
  simp only [flat]
  omega

/-- The cells of a slab ascend in the order of its positions. -/
theorem pairwise_cells {shape corner counts : List Nat} (hlen : corner.length = counts.length)
    (hin : InShape (shifted corner counts) shape) :
    ((positions counts).map fun p => flat shape (shifted corner p)).Pairwise (· < ·) := by
  rw [List.pairwise_map]
  induction counts generalizing shape corner with
  | nil => simp [positions]
  | cons c cs ih =>
      cases corner with
      | nil => cases hlen
      | cons s ss =>
          cases hin with
          | @cons _ e _ es _ hrest =>
              have hlen' : ss.length = cs.length := by simpa using hlen
              rw [positions, List.pairwise_flatMap]
              constructor
              · -- within a row the first coordinate is the same
                intro i _
                rw [List.pairwise_map]
                refine (ih hlen' hrest).imp fun {p q} hpq => ?_
                simp only [shifted, List.zipWith_cons_cons, flat]
                exact Nat.add_lt_add_left hpq _
              · refine List.pairwise_lt_range.imp fun {i j} hij p hp q hq => ?_
                obtain ⟨is, his, rfl⟩ := List.mem_map.mp hp
                obtain ⟨js, -, rfl⟩ := List.mem_map.mp hq
                exact flat_lt_of_head_lt (Nat.add_lt_add_left hij s)
                  ((mem_positions.mp his).shifted hlen' hrest)

/-! ### Whether a slab lies inside the array -/

/-- In every dimension neither number is negative, and the slab ends within the extent. -/
def Inside (shape : List Nat) (start count : List Int) : Prop :=
  ∀ (d e : Nat) (s c : Int), shape[d]? = some e → start[d]? = some s → count[d]? = some c →
    0 ≤ s ∧ 0 ≤ c ∧ s + c ≤ e

def Summable (start count : List Int) : Prop :=
  ∀ (d : Nat) (s c : Int), start[d]? = some s → count[d]? = some c → 0 ≤ s → 0 ≤ c →
    Word.i64.Fits (s + c)

variable {shape : List Nat} {start count : List Int} {stride : Int}

theorem inside_cons {e : Nat} {s c : Int} :
    Inside (e :: shape) (s :: start) (c :: count) ↔
      (0 ≤ s ∧ 0 ≤ c ∧ s + c ≤ e) ∧ Inside shape start count := by
  constructor
  · intro h
    exact ⟨h 0 e s c rfl rfl rfl, fun d => h (d + 1)⟩
  · rintro ⟨hfirst, hrest⟩ d
    cases d with
    | zero =>
        rintro e' s' c' he hs hc
        cases he
        cases hs
        cases hc
        exact hfirst
    | succ d => exact hrest d

theorem Summable.tail {s c : Int} (h : Summable (s :: start) (c :: count)) :
    Summable start count := fun d => h (d + 1)

theorem exists_inside (shape : List Nat) (h : Summable start count) :
    ∃ b, inside shape start count = .ok b ∧ (b = true ↔ Inside shape start count) := by
  induction shape generalizing start count with
  | nil => exact ⟨true, rfl, by simp [Inside]⟩
  | cons e es ih =>
      match start, count with
      | [], _ => exact ⟨true, rfl, by simp [Inside]⟩
      | _ :: _, [] => exact ⟨true, rfl, by simp [Inside]⟩
      | s :: ss, c :: cs =>
          rw [inside_cons, inside]
          by_cases hsigns : s < 0 ∨ c < 0
          · refine ⟨false, if_pos hsigns, ?_⟩
            simp only [Bool.false_eq_true, false_iff]
            omega
          · have hfits := h 0 s c rfl rfl (by omega) (by omega)
            obtain ⟨b, hb, hiff⟩ := ih h.tail
            rw [if_neg hsigns, Word.add_of_fits hfits, ok_bind]
            by_cases hstop : s + c ≤ e
            · refine ⟨b, by rw [if_pos hstop, hb], hiff.trans ⟨fun hin => ⟨?_, hin⟩, And.right⟩⟩
              omega
            · refine ⟨false, if_neg hstop, ?_⟩
              simp only [Bool.false_eq_true, false_iff]
              omega

theorem not_inside : ¬ Inside shape start count ↔
    ∃ (d e : Nat) (s c : Int), shape[d]? = some e ∧ start[d]? = some s ∧ count[d]? = some c ∧
      (s < 0 ∨ c < 0 ∨ e < s + c) := by
  simp only [Inside, not_forall]
  constructor
  · rintro ⟨d, e, s, c, he, hs, hc, hnot⟩
    exact ⟨d, e, s, c, he, hs, hc, by omega⟩
  · rintro ⟨d, e, s, c, he, hs, hc, hbad⟩
    exact ⟨d, e, s, c, he, hs, hc, by omega⟩

/-! ### Whether a slab is listed -/

/-- The slab has a start and a count for every dimension, is not strided, and lies inside the
array. -/
structure Within (shape : List Nat) (start count : List Int) (stride : Int) : Prop where
  start_length : start.length = shape.length
  count_length : count.length = shape.length
  stride_le : stride ≤ 1
  inside : Inside shape start count

theorem not_within : ¬ Within shape start count stride ↔
    start.length ≠ shape.length ∨ count.length ≠ shape.length ∨ 1 < stride ∨
      ∃ (d e : Nat) (s c : Int), shape[d]? = some e ∧ start[d]? = some s ∧ count[d]? = some c ∧
        (s < 0 ∨ c < 0 ∨ e < s + c) := by
  rw [← not_inside]
  constructor
  · intro h
    by_contra hnone
    simp only [not_or, not_not, Int.not_lt] at hnone
    exact h ⟨hnone.1, hnone.2.1, hnone.2.2.1, hnone.2.2.2⟩
  · rintro (hbad | hbad | hbad | hbad) ⟨hstart, hcount, hstride, hinside⟩
    · exact hbad hstart
    · exact hbad hcount
    · omega
    · exact hbad hinside

theorem indices_of_not_within (hsum : Summable start count)
    (h : ¬ Within shape start count stride) : indices shape start count stride = .ok none := by
  unfold indices
  split
  · rfl
  · next hlens =>
      simp only [not_or, not_not, Int.not_lt] at hlens
      obtain ⟨b, hb, hiff⟩ := exists_inside shape hsum
      have hfalse : b = false := by
        rw [← Bool.not_eq_true, hiff]
        exact fun hin => h ⟨hlens.1, hlens.2.1, hlens.2.2, hin⟩
      rw [hb, ok_bind, hfalse]
      rfl

theorem Within.exists_listed (h : Within shape start count stride) (hsum : Summable start count)
    (hshape : Indexable shape)
    (hroom : ∀ corner counts : List Nat, count = counts.map Int.ofNat →
      corner.length = counts.length → InShape (shifted corner counts) shape → Addressable counts) :
    ∃ cells, indices shape start count stride = .ok (some cells) := by
  obtain ⟨b, hb, hiff⟩ := exists_inside shape hsum
  rw [hiff.mpr h.inside] at hb
  obtain ⟨corner, counts, rfl, rfl⟩ := inside_ok h.start_length h.count_length hb
  have hcorner : corner.length = shape.length := by simpa using h.start_length
  have hcounts : counts.length = shape.length := by simpa using h.count_length
  exact ⟨_, indices_of_inside hcorner hcounts h.stride_le hb hshape
    (hroom corner counts rfl (hcorner.trans hcounts.symm) (inside_true hcorner hcounts hb).1)⟩

theorem addressable_of_prod_lt {counts : List Nat}
    (h : ∀ k, ((counts.map Int.ofNat).take k).prod < doublesBound) :
    Addressable counts := by
  intro k
  have hk := h k
  have hcast : (((counts.take k).prod : Nat) : Int) = ((counts.take k).map Int.ofNat).prod :=
    Nat.cast_list_prod _
  rw [← List.map_take, ← hcast] at hk
  omega

theorem Within.exists_listed_of_addressable (h : Within shape start count stride)
    (hsum : Summable start count) (hshape : Addressable shape) :
    ∃ cells, indices shape start count stride = .ok (some cells) :=
  h.exists_listed hsum hshape.indexable fun _ _ _ hlen hin =>
    ((inShape_shifted_right hlen).trans hin).addressable hshape

/-! ### What is listed -/

def InBox (count : List Int) (position : List Nat) : Prop :=
  List.Forall₂ (fun (i : Nat) (c : Int) => i < c) position count

def place (start : List Int) (position : List Nat) : List Nat :=
  List.zipWith (fun s i => s.toNat + i) start position

def volume (count : List Int) : Nat := (count.map Int.toNat).prod

theorem inBox_ofNat {counts position : List Nat} :
    InBox (counts.map Int.ofNat) position ↔ Below counts position := by
  rw [InBox, List.forall₂_map_right_iff]
  exact ⟨fun h => h.imp fun _ _ hlt => Int.ofNat_lt.mp hlt,
    fun h => h.imp fun _ _ hlt => Int.ofNat_lt.mpr hlt⟩

theorem place_ofNat (corner position : List Nat) :
    place (corner.map Int.ofNat) position = shifted corner position := by
  rw [place, List.zipWith_map_left]
  rfl

theorem map_toNat_ofNat (ns : List Nat) : (ns.map Int.ofNat).map Int.toNat = ns := by
  rw [List.map_map]
  exact List.map_id ns

section

variable {cells : List Nat} (h : indices shape start count stride = .ok (some cells))

include h

theorem length_of_listed : cells.length = volume count := by
  obtain ⟨corner, counts, rfl, rfl, -, -, rfl⟩ := indices_ok h
  rw [List.length_map, length_positions, volume, map_toNat_ofNat]

theorem volume_of_listed : (volume count : Int) = count.prod := by
  obtain ⟨corner, counts, rfl, rfl, -, -, rfl⟩ := indices_ok h
  rw [volume, map_toNat_ofNat]
  exact Nat.cast_list_prod _

theorem pairwise_of_listed : cells.Pairwise (· < ·) := by
  obtain ⟨corner, counts, rfl, rfl, hlen, hin, rfl⟩ := indices_ok h
  exact pairwise_cells hlen hin

theorem below_place {position : List Nat} (hp : InBox count position) :
    Below shape (place start position) := by
  obtain ⟨corner, counts, rfl, rfl, hlen, hin, rfl⟩ := indices_ok h
  rw [place_ofNat]
  exact (inBox_ofNat.mp hp).shifted hlen hin

/-- Every position has its index where the row-major order puts it. -/
theorem getElem?_of_listed {position : List Nat} (hp : InBox count position) :
    cells[rowMajor (count.map Int.toNat) position]? =
      some (rowMajor shape (place start position)) := by
  have hplace := below_place h hp
  obtain ⟨corner, counts, rfl, rfl, hlen, hin, rfl⟩ := indices_ok h
  have hbelow := inBox_ofNat.mp hp
  rw [map_toNat_ofNat, ← flat_eq_rowMajor hbelow.length_eq, ← flat_eq_rowMajor hplace.length_eq,
    List.getElem?_map, getElem?_positions hbelow, place_ofNat]
  rfl

/-- Every index is that of a position. -/
theorem exists_position_of_listed {i : Nat} (hi : i ∈ cells) :
    ∃ position, InBox count position ∧ i = rowMajor shape (place start position) := by
  obtain ⟨corner, counts, rfl, rfl, hlen, hin, rfl⟩ := indices_ok h
  obtain ⟨position, hp, rfl⟩ := List.mem_map.mp hi
  have hbelow := mem_positions.mp hp
  refine ⟨position, inBox_ofNat.mpr hbelow, ?_⟩
  rw [place_ofNat, flat_eq_rowMajor (hbelow.shifted hlen hin).length_eq]

end

/-- The listing of a slab is exact. It is refused only for a reason that can be named, and
otherwise has the index of every position where the row-major order puts it. -/
theorem indices_exact (shape : List Nat) (start count : List Int) (stride : Int)
    (hsum : ∀ (d : Nat) (s c : Int), start[d]? = some s → count[d]? = some c → 0 ≤ s → 0 ≤ c →
      Word.i64.Fits (s + c))
    (hshape : ∀ k, Word.u64.Fits ((shape.take k).prod : Nat))
    (hcount : ∀ k, (count.take k).prod < doublesBound) :
    ∃ listed, indices shape start count stride = .ok listed ∧
      (listed = none ↔
        start.length ≠ shape.length ∨ count.length ≠ shape.length ∨ 1 < stride ∨
          ∃ (d e : Nat) (s c : Int),
            shape[d]? = some e ∧ start[d]? = some s ∧ count[d]? = some c ∧
              (s < 0 ∨ c < 0 ∨ e < s + c)) ∧
      ∀ cells, listed = some cells →
        (cells.length : Int) = count.prod ∧ cells.Pairwise (· < ·) ∧
        (∀ i ∈ cells, i < shape.prod) ∧
        ∀ position : List Nat, InBox count position →
          cells[rowMajor (count.map Int.toNat) position]? =
            some (rowMajor shape (place start position)) := by
  rw [← not_within]
  by_cases h : Within shape start count stride
  · obtain ⟨cells, hcells⟩ := h.exists_listed hsum hshape fun corner counts heq _ _ =>
      addressable_of_prod_lt fun k => heq ▸ hcount k
    refine ⟨some cells, hcells, by simp [h], ?_⟩
    rintro _ ⟨⟩
    refine ⟨?_, pairwise_of_listed hcells, fun i => lt_of_mem_indices hcells,
      fun position hposition => getElem?_of_listed hcells hposition⟩
    rw [length_of_listed hcells, volume_of_listed hcells]
  · exact ⟨none, indices_of_not_within hsum h, by simp [h], nofun⟩

/-- Two cells at the far end of an array that has more cells than a signed word can count. -/
theorem farCorner_listed :
    indices [3, 4611686018427387904] [2, 4611686018427387902] [1, 2] 1 =
        .ok (some [13835058055282163710, 13835058055282163711]) ∧
      ([13835058055282163710, 13835058055282163711] : List Nat)[rowMajor [1, 2] [0, 1]]? =
        some (rowMajor [3, 4611686018427387904] [2, 4611686018427387903]) := by
  have hlisted : indices [3, 4611686018427387904] [2, 4611686018427387902] [1, 2] 1 =
      .ok (some [13835058055282163710, 13835058055282163711]) := by decide +kernel
  obtain ⟨listed, hother, -, hexact⟩ := indices_exact [3, 4611686018427387904]
    [2, 4611686018427387902] [1, 2] 1
    (by
      intro d s c hs hc _ _
      rcases d with - | - | d
      · cases hs
        cases hc
        decide
      · cases hs
        cases hc
        decide
      · cases hs)
    (by
      intro k
      rcases k with - | - | k
      · decide
      · decide
      · simpa using (by decide : Word.u64.Fits 13835058055282163712))
    (by
      intro k
      rcases k with - | - | k
      · decide
      · decide
      · simp [doublesBound_eq])
  cases hlisted.symm.trans hother
  exact ⟨hlisted, (hexact _ rfl).2.2.2 [0, 1] (by simp [InBox])⟩

end SpmdArrays.Slab
