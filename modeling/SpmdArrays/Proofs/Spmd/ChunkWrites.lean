import Mathlib.Tactic.Choose
import SpmdArrays.Proofs.Spmd.Portions
import SpmdArrays.Spmd.Chunk

/-!
Writes into a distributed array. Every rank goes through all writes on its own
chunk of rows. What a chunk holds is a slice of the whole array, and a write
keeps it so: a chunk that takes in the row stores the value where the whole
array has it, and every other chunk counts a write that it dropped. As the
chunks lie side by side, they hold the whole array together, and every write
that lies in the array is stored by one of them.
-/

namespace SpmdArrays.Spmd

/-- A write, addressed by row and column of the whole array. -/
structure Write (α : Type) where
  row : Int
  column : Nat
  value : α

namespace Write

variable {α : Type}

/-- The write lies in the rows from `lo` up to `hi` of an array with `m` columns. -/
def Within (u : Write α) (lo hi m : Nat) : Prop := lo ≤ u.row ∧ u.row < hi ∧ u.column < m

instance (u : Write α) (lo hi m : Nat) : Decidable (u.Within lo hi m) := by
  unfold Within; infer_instance

def place (u : Write α) (m : Nat) : Nat := u.row.toNat * m + u.column

/-- The flat array of `rows` rows after a write; one outside of it changes nothing. -/
def apply (rows m : Nat) (whole : List α) (u : Write α) : List α :=
  if u.Within 0 rows m then whole.set (u.place m) u.value else whole

def applyAll (rows m : Nat) (whole : List α) (us : List (Write α)) : List α :=
  us.foldl (apply rows m) whole

@[simp] theorem length_apply (rows m : Nat) (whole : List α) (u : Write α) :
    (apply rows m whole u).length = whole.length := by
  unfold apply
  split <;> simp

theorem length_applyAll (rows m : Nat) (whole : List α) (us : List (Write α)) :
    (applyAll rows m whole us).length = whole.length := by
  induction us generalizing whole with
  | nil => rfl
  | cons u us ih =>
      rw [applyAll, List.foldl_cons, ← applyAll, ih, length_apply]

end Write

namespace Chunk

variable {α : Type}

/-- The chunk of a rank at the start: its portion of the rows, all elements zero. -/
def blank (zero : α) (rows : Int) (m ranks rank : Nat) : Except Fault (Chunk α) := do
  let portion ← Portion.of rows ranks rank
  let count ← portion.length
  return Chunk.of (Array.replicate (count.toNat * m) zero) m portion.start count

def setAll (c : Chunk α) (us : List (Write α)) : Except Fault (Chunk α) :=
  us.foldlM (fun c u => c.set u.row u.column u.value) c

/-- The write goes to an element of this chunk. -/
def stores (c : Chunk α) (u : Write α) : Bool :=
  match c.slot? u.row u.column with
  | .ok (some _) => true
  | _ => false

/-- Which of the writes a chunk stores, each at the time it is made. -/
def storing (c : Chunk α) : List (Write α) → List Bool
  | [] => []
  | u :: us =>
    c.stores u ::
      match c.set u.row u.column u.value with
      | .ok c' => c'.storing us
      | .error _ => []

/-- The chunk holds the rows from `lo` up to `hi` of the whole array, in a buffer
that an address space can hold. -/
structure Holds (lo hi m : Nat) (whole : List α) (c : Chunk α) : Prop where
  rowLength : c.rowLength = m
  start : c.start = lo
  count : c.count = (hi - lo : Nat)
  data : c.data.toList = (whole.drop (lo * m)).take ((hi - lo) * m)
  room : c.data.size ≤ maxBytes

variable {lo hi rows m : Nat} {whole : List α} {c : Chunk α} {u : Write α}

theorem slot?_of_room (c : Chunk α) {row : Int} (column : Nat) (hrow : Word.i64.Fits row)
    (hstart : 0 ≤ c.start)
    (hsize : (c.data.size : Int) = max 0 (c.count * c.rowLength)) (hroom : c.data.size ≤ maxBytes) :
    c.slot? row column =
      .ok (if (c.start ≤ row ∧ row < c.start + c.count) ∧ column < c.rowLength then
        some ((row - c.start).toNat * c.rowLength + column) else none) := by
  rw [maxBytes_eq] at hroom
  unfold slot?
  rw [itemOffset_of_nonneg hrow hstart, ok_bind]
  by_cases hin : (c.start ≤ row ∧ row < c.start + c.count) ∧ column < c.rowLength
  · obtain ⟨hrows, hcol⟩ := id hin
    obtain ⟨k, hk⟩ : ∃ k : Nat, row - c.start = k := ⟨(row - c.start).toNat, by omega⟩
    obtain ⟨count, hcount⟩ : ∃ count : Nat, c.count = count := ⟨c.count.toNat, by omega⟩
    have hend : k * c.rowLength + column < count * c.rowLength := by
      have hnext : (k + 1) * c.rowLength ≤ count * c.rowLength :=
        Nat.mul_le_mul_right c.rowLength (by omega)
      rw [Nat.add_mul] at hnext
      omega
    have hmul : (k : Int) * c.rowLength = (k * c.rowLength : Nat) := by simp
    have hdata : c.data.size = count * c.rowLength := by
      rw [hcount] at hsize
      have hcast : (count : Int) * c.rowLength = (count * c.rowLength : Nat) := by simp
      omega
    rw [if_pos hrows, if_pos hin, hk, if_neg (by omega),
      Word.mul_of_fits (by rw [Word.fits_u64, hmul]; omega), ok_bind, hmul,
      Word.add_of_fits (by rw [Word.fits_u64]; omega), ok_bind, if_pos (by omega)]
    rfl
  · have hdrop : (if c.start ≤ row ∧ row < c.start + c.count then row - c.start else -1) < 0 ∨
        c.rowLength ≤ column := by
      split <;> omega
    rw [if_pos hdrop, if_neg hin]
    rfl

theorem Holds.size_eq (h : c.Holds lo hi m whole) (hlo : lo ≤ hi) (hhi : hi ≤ rows)
    (hwhole : whole.length = rows * m) : c.data.size = (hi - lo) * m := by
  have hle : (hi - lo) * m + lo * m ≤ rows * m := by
    rw [← Nat.add_mul]
    exact Nat.mul_le_mul_right m (by omega)
  rw [← Array.length_toList, h.data, List.length_take, List.length_drop, hwhole]
  omega

/-- A chunk knows its rows: a write is stored if it lies in them, and none of the
address arithmetic leaves its range. -/
theorem Holds.slot?_eq (h : c.Holds lo hi m whole) (hlo : lo ≤ hi) (hhi : hi ≤ rows)
    (hwhole : whole.length = rows * m) (hrow : Word.i64.Fits u.row) :
    c.slot? u.row u.column =
      .ok (if u.Within lo hi m then some (u.place m - lo * m) else none) := by
  have hsize : (c.data.size : Int) = max 0 (c.count * c.rowLength) := by
    rw [h.count, h.rowLength, h.size_eq hlo hhi hwhole, Int.natCast_mul]
    exact (Int.max_eq_right (Int.mul_nonneg (Int.natCast_nonneg _) (Int.natCast_nonneg _))).symm
  rw [slot?_of_room c u.column hrow (by rw [h.start]; omega) hsize h.room, h.start, h.count,
    h.rowLength]
  by_cases hin : u.Within lo hi m
  · obtain ⟨hfirst, hlast, hcol⟩ := id hin
    rw [if_pos hin, if_pos (by omega)]
    -- the offset of the row, and the place in the chunk
    obtain ⟨k, hk⟩ : ∃ k : Nat, u.row - lo = k := ⟨(u.row - lo).toNat, by omega⟩
    have hrow : u.row.toNat = lo + k := by omega
    rw [hk, Int.toNat_natCast, Write.place, hrow, Nat.add_mul, Nat.add_assoc,
      Nat.add_sub_cancel_left]
  · rw [if_neg hin, if_neg fun hout => hin (by simp only [Write.Within]; omega)]

theorem Holds.stores_eq (h : c.Holds lo hi m whole) (hlo : lo ≤ hi) (hhi : hi ≤ rows)
    (hwhole : whole.length = rows * m) (hrow : Word.i64.Fits u.row) :
    c.stores u = decide (u.Within lo hi m) := by
  rw [stores, h.slot?_eq hlo hhi hwhole hrow]
  split <;> simp_all

theorem take_drop_set (whole : List α) (i n k : Nat) (v : α) :
    ((whole.set k v).drop i).take n =
      if i ≤ k ∧ k < i + n then ((whole.drop i).take n).set (k - i) v
      else (whole.drop i).take n := by
  rw [List.drop_set]
  by_cases hlt : k < i
  · rw [if_pos hlt, if_neg (by omega)]
  · rw [if_neg hlt, List.take_set]
    by_cases hn : k < i + n
    · rw [if_pos (by omega)]
    · rw [if_neg (by omega), List.set_eq_of_length_le]
      rw [List.length_take]
      omega

/-- Inside the rows of a chunk, a write goes where the slice has it; outside of them
it does not touch the slice. -/
theorem slice_apply (whole : List α) (hlo : lo ≤ hi) (hhi : hi ≤ rows) :
    ((u.apply rows m whole).drop (lo * m)).take ((hi - lo) * m) =
      if u.Within lo hi m then
        ((whole.drop (lo * m)).take ((hi - lo) * m)).set (u.place m - lo * m) u.value
      else (whole.drop (lo * m)).take ((hi - lo) * m) := by
  unfold Write.apply
  by_cases hall : u.Within 0 rows m
  · rw [if_pos hall, take_drop_set]
    -- a place lies in the slice exactly when its row lies in the chunk
    have hplace : (lo * m ≤ u.place m ∧ u.place m < lo * m + (hi - lo) * m) ↔
        u.Within lo hi m := by
      obtain ⟨hrow, -, hcol⟩ := hall
      obtain ⟨i, hi'⟩ : ∃ i : Nat, u.row = i := ⟨u.row.toNat, by omega⟩
      have htoNat : u.row.toNat = i := by omega
      rw [← Nat.add_mul, Nat.add_sub_cancel' hlo, Write.place, htoNat]
      simp only [Write.Within, hi', hcol, and_true, Int.ofNat_le, Int.ofNat_lt]
      constructor
      · rintro ⟨hge, hlt⟩
        have h₁ : lo * m < (i + 1) * m := by
          rw [Nat.add_mul]
          omega
        have h₂ : i * m < hi * m := by omega
        exact ⟨Nat.le_of_lt_succ (Nat.lt_of_mul_lt_mul_right h₁), Nat.lt_of_mul_lt_mul_right h₂⟩
      · rintro ⟨hge, hlt⟩
        have h₁ : lo * m ≤ i * m := Nat.mul_le_mul_right m hge
        have h₂ : (i + 1) * m ≤ hi * m := Nat.mul_le_mul_right m hlt
        rw [Nat.add_mul] at h₂
        omega
    simp only [hplace]
  · have hout : ¬ u.Within lo hi m := by
      simp only [Write.Within] at hall ⊢
      omega
    rw [if_neg hall, if_neg hout]

/-- One write: the chunk holds the same rows of the array after the write, and
counts the write if it did not store it. -/
theorem Holds.set (h : c.Holds lo hi m whole) (hlo : lo ≤ hi) (hhi : hi ≤ rows)
    (hwhole : whole.length = rows * m) (hrow : Word.i64.Fits u.row) :
    ∃ c', c.set u.row u.column u.value = .ok c' ∧ c'.Holds lo hi m (u.apply rows m whole) ∧
      c'.dropped = c.dropped + if u.Within lo hi m then 0 else 1 := by
  have hslice := slice_apply (u := u) (m := m) whole hlo hhi
  unfold Chunk.set
  rw [h.slot?_eq hlo hhi hwhole hrow, ok_bind]
  by_cases hin : u.Within lo hi m
  · simp only [if_pos hin] at hslice ⊢
    refine ⟨_, rfl, ⟨h.rowLength, h.start, h.count, ?_, ?_⟩, rfl⟩
    · rw [hslice, ← h.data]
      exact Array.toList_setIfInBounds ..
    · simpa using h.room
  · simp only [if_neg hin] at hslice ⊢
    exact ⟨_, rfl, ⟨h.rowLength, h.start, h.count, hslice ▸ h.data, h.room⟩, rfl⟩

theorem Holds.setAll (h : c.Holds lo hi m whole) (hlo : lo ≤ hi) (hhi : hi ≤ rows)
    (hwhole : whole.length = rows * m) {us : List (Write α)}
    (hrows : ∀ u ∈ us, Word.i64.Fits u.row) :
    ∃ c', c.setAll us = .ok c' ∧ c'.Holds lo hi m (Write.applyAll rows m whole us) ∧
      c'.dropped = c.dropped + (c.storing us).count false ∧
      c.storing us = us.map fun u => decide (u.Within lo hi m) := by
  induction us generalizing c whole with
  | nil => exact ⟨c, rfl, h, rfl, rfl⟩
  | cons u us ih =>
      have hrow := hrows u (by simp)
      have hstores := h.stores_eq hlo hhi hwhole hrow
      obtain ⟨c₁, hset, hholds, hdropped⟩ := h.set hlo hhi hwhole hrow
      obtain ⟨c₂, hall, hholds₂, hdropped₂, hstoring⟩ := ih hholds (by simpa using hwhole)
        fun v hv => hrows v (by simp [hv])
      refine ⟨c₂, ?_, hholds₂, ?_, ?_⟩
      · rw [Chunk.setAll, List.foldlM_cons, hset, ok_bind]
        exact hall
      · rw [hdropped₂, hdropped]
        simp only [storing, hset, hstores]
        by_cases hin : u.Within lo hi m <;> simp [hin]
        omega
      · simp only [storing, hset, hstores, hstoring, List.map_cons]

/-- A rank starts with its rows of an array of zeros. -/
theorem exists_blank (zero : α) {ranks rank : Nat} (hm : 0 < m) (hrows : Word.i64.Fits rows)
    (hrank : rank < ranks)
    (hroom : ∀ c, blank zero rows m ranks rank = .ok c → (c.data.size : Int) ≤ maxBytes) :
    ∃ c, blank zero rows m ranks rank = .ok c ∧ c.dropped = 0 ∧
      c.Holds (Portion.bound rows ranks rank) (Portion.bound rows ranks (rank + 1)) m
        (List.replicate (rows * m) zero) := by
  have hlo := Portion.bound_le_succ rows ranks rank
  have hhi : Portion.bound rows ranks (rank + 1) ≤ rows :=
    Portion.bound_le_total hrank (Nat.zero_lt_of_lt hrank)
  have hblank : blank zero rows m ranks rank = .ok (Chunk.of
      (Array.replicate ((Portion.bound rows ranks (rank + 1) - Portion.bound rows ranks rank) * m)
        zero) m (Portion.bound rows ranks rank)
      (Portion.bound rows ranks (rank + 1) - Portion.bound rows ranks rank : Nat)) := by
    rw [blank, Portion.of_eq hrows hrank, ok_bind, Portion.length_eq hrows hrank, ok_bind,
      Int.toNat_natCast]
    rfl
  refine ⟨_, hblank, rfl, ⟨Nat.max_eq_left hm, rfl, rfl, ?_, hroom _ hblank⟩⟩
  -- a slice of zeros
  have hle : (Portion.bound rows ranks (rank + 1) - Portion.bound rows ranks rank) * m ≤
      rows * m - Portion.bound rows ranks rank * m := by
    rw [← Nat.sub_mul]
    exact Nat.mul_le_mul_right m (by omega)
  simp only [Chunk.of, Array.toList_replicate, List.drop_replicate, List.take_replicate]
  rw [Nat.min_eq_left hle]

end Chunk

/-- Every rank runs all writes on its own chunk of an array of zeros, a buffer that an
address space can hold, and no address leaves its range. The chunks in the order of the
ranks are then the whole array after the writes that lie in it. Each of these is stored
by exactly one rank, every other write by none, and a rank counts the writes that it did
not store. -/
theorem Chunk.writes_land_once {α : Type} (zero : α) {rows ranks m : Nat}
    (hrows : Word.i64.Fits rows) (hranks : 0 < ranks) (hm : 0 < m)
    (hroom : ∀ w < ranks, ∀ c, Chunk.blank zero rows m ranks w = .ok c →
      (c.data.size : Int) ≤ maxBytes)
    {us : List (Write α)} (hus : ∀ u ∈ us, Word.i64.Fits u.row) :
    ∃ first last : Nat → Chunk α,
      (∀ w < ranks, Chunk.blank zero rows m ranks w = .ok (first w) ∧
        (first w).setAll us = .ok (last w) ∧
        ((first w).storing us).length = us.length ∧
        (last w).dropped = ((first w).storing us).count false) ∧
      ((List.range ranks).flatMap fun w => (last w).data.toList) =
        Write.applyAll rows m (List.replicate (rows * m) zero) us ∧
      ∀ (i : Nat) (u : Write α), us[i]? = some u →
        (u.Within 0 rows m → ∃! w, w < ranks ∧ ((first w).storing us)[i]? = some true) ∧
        (¬ u.Within 0 rows m → ∀ w < ranks, ((first w).storing us)[i]? = some false) := by
  have hrank : ∀ w < ranks, ∃ c c' : Chunk α, Chunk.blank zero rows m ranks w = .ok c ∧
      c.setAll us = .ok c' ∧
      c'.Holds (Portion.bound rows ranks w) (Portion.bound rows ranks (w + 1)) m
        (Write.applyAll rows m (List.replicate (rows * m) zero) us) ∧
      c'.dropped = (c.storing us).count false ∧
      c.storing us = us.map fun u =>
        decide (u.Within (Portion.bound rows ranks w) (Portion.bound rows ranks (w + 1)) m) := by
    intro w hw
    obtain ⟨c, hblank, hzero, hholds⟩ := Chunk.exists_blank zero hm hrows hw (hroom w hw)
    obtain ⟨c', hall, hholds', hdropped, hstoring⟩ := hholds.setAll (Portion.bound_le_succ ..)
      (Portion.bound_le_total hw hranks) List.length_replicate hus
    exact ⟨c, c', hblank, hall, hholds', by rw [hdropped, hzero, Nat.zero_add], hstoring⟩
  have : Nonempty (Chunk α) := ⟨Chunk.of #[] m 0 0⟩
  choose! first last hblank hall hholds hdropped hstoring using hrank
  refine ⟨first, last, fun w hw => ⟨hblank w hw, hall w hw, ?_, hdropped w hw⟩, ?_, ?_⟩
  · rw [hstoring w hw, List.length_map]
  · -- the chunks are the pieces of the array between the bounds
    have hpieces : ∀ w ∈ List.range ranks, (last w).data.toList =
        ((Write.applyAll rows m (List.replicate (rows * m) zero) us).drop
          (Portion.bound rows ranks w * m)).take
          (Portion.bound rows ranks (w + 1) * m - Portion.bound rows ranks w * m) := by
      intro w hw
      rw [(hholds w (List.mem_range.mp hw)).data, Nat.sub_mul]
    rw [List.flatMap_def, List.map_congr_left hpieces, ← List.flatMap_def,
      flatMap_slices (b := fun w => Portion.bound rows ranks w * m) _ (by simp)
        fun w => Nat.mul_le_mul_right m (Portion.bound_le_succ ..)]
    simp only [Portion.bound_last hranks]
    apply List.take_of_length_le
    simp [Write.length_applyAll]
  · intro i u hi
    have hstores : ∀ w < ranks, ((first w).storing us)[i]? = some (decide
        (u.Within (Portion.bound rows ranks w) (Portion.bound rows ranks (w + 1)) m)) := by
      intro w hw
      rw [hstoring w hw, List.getElem?_map, hi, Option.map_some]
    constructor
    · rintro ⟨hzero, hlast, hcol⟩
      -- the rank that stores the write is the one whose rows take in the row
      have hiff : ∀ w < ranks, ((first w).storing us)[i]? = some true ↔
          Portion.bound rows ranks w ≤ u.row.toNat ∧
            u.row.toNat < Portion.bound rows ranks (w + 1) := by
        intro w hw
        rw [hstores w hw, Option.some.injEq, decide_eq_true_iff]
        simp only [Write.Within]
        omega
      obtain ⟨w, ⟨hw, hin⟩, honly⟩ :=
        Portion.existsUnique_bound hranks (show u.row.toNat < rows by omega)
      refine ⟨w, ⟨hw, (hiff w hw).mpr hin⟩, ?_⟩
      rintro v ⟨hv, hvin⟩
      exact honly v ⟨hv, (hiff v hv).mp hvin⟩
    · intro hout w hw
      rw [hstores w hw, Option.some.injEq, decide_eq_false_iff_not]
      have hle : Portion.bound rows ranks (w + 1) ≤ rows := Portion.bound_le_total hw hranks
      simp only [Write.Within] at hout ⊢
      omega

/-- Writes at the edges of five rows of two elements, and outside of them. -/
def edgeWrites : List (Write Int) :=
  [⟨0, 0, 10⟩, ⟨4, 1, 20⟩, ⟨-1, 0, 30⟩, ⟨5, 0, 40⟩, ⟨2, 2, 50⟩, ⟨2, 1, 60⟩, ⟨2, 1, 70⟩,
    ⟨9223372036854775807, 0, 80⟩, ⟨-9223372036854775808, 1, 90⟩]

theorem Chunk.edgeWrites_land_once :
    ∃ first last : Nat → Chunk Int,
      (∀ w < 7, Chunk.blank 0 5 2 7 w = .ok (first w) ∧
        (first w).setAll edgeWrites = .ok (last w) ∧
        ((first w).storing edgeWrites).length = edgeWrites.length ∧
        (last w).dropped = ((first w).storing edgeWrites).count false) ∧
      ((List.range 7).flatMap fun w => (last w).data.toList) = [10, 0, 0, 0, 0, 70, 0, 0, 0, 20] ∧
      ∀ (i : Nat) (u : Write Int), edgeWrites[i]? = some u →
        (u.Within 0 5 2 → ∃! w, w < 7 ∧ ((first w).storing edgeWrites)[i]? = some true) ∧
        (¬ u.Within 0 5 2 → ∀ w < 7, ((first w).storing edgeWrites)[i]? = some false) := by
  have hrows : ∀ u ∈ edgeWrites, Word.i64.Fits u.row := by decide
  have hroom : ∀ w < 7, ∀ c, Chunk.blank (0 : Int) 5 2 7 w = .ok c →
      (c.data.size : Int) ≤ maxBytes := by
    intro w hw c hc
    have hle : c.data.size ≤ 2 := by
      match w with
      | 0 | 1 | 2 | 3 | 4 | 5 | 6 => cases hc; decide
      | w + 7 => omega
    rw [maxBytes_eq]
    omega
  exact Chunk.writes_land_once (0 : Int) (by decide) (by decide) (by decide) hroom hrows

end SpmdArrays.Spmd
