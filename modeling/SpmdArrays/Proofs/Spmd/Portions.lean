import Mathlib.Logic.ExistsUnique
import SpmdArrays.Spmd.Portion

/-!
Balanced portions, as bounds. Chunk `w` of a total reaches from `bound w` up to
`bound (w + 1)`; the bounds begin at zero, never go down and end at the total, so
the chunks lie side by side and take in every item once. The portion of any worker
lies between two bounds, which are cut off at the last one. A list that is cut at
the bounds is put together again by appending its pieces.
-/

namespace SpmdArrays.Spmd

namespace Portion

/-- The number of items in front of chunk `w`. -/
def bound (total chunks w : Nat) : Nat := w * (total / chunks) + min w (total % chunks)

variable {total chunks w : Nat}

@[simp] theorem bound_zero (total chunks : Nat) : bound total chunks 0 = 0 := by
  simp [bound]

theorem bound_succ (total chunks w : Nat) :
    bound total chunks (w + 1) =
      bound total chunks w + (total / chunks + if w < total % chunks then 1 else 0) := by
  have hmul : (w + 1) * (total / chunks) = w * (total / chunks) + total / chunks :=
    Nat.succ_mul ..
  simp only [bound, hmul]
  split <;> omega

theorem bound_le_succ (total chunks w : Nat) :
    bound total chunks w ≤ bound total chunks (w + 1) := by
  rw [bound_succ]
  exact Nat.le_add_right ..

theorem bound_mono (total chunks : Nat) {v w : Nat} (h : v ≤ w) :
    bound total chunks v ≤ bound total chunks w := by
  induction h with
  | refl => exact Nat.le_refl _
  | step _ ih => exact Nat.le_trans ih (bound_le_succ ..)

theorem bound_last (h : 0 < chunks) : bound total chunks chunks = total := by
  have hmod : total % chunks ≤ chunks := Nat.le_of_lt (Nat.mod_lt _ h)
  rw [bound, Nat.min_eq_right hmod]
  exact Nat.div_add_mod ..

theorem bound_le_total (h : w ≤ chunks) (hpos : 0 < chunks) : bound total chunks w ≤ total := by
  calc bound total chunks w ≤ bound total chunks chunks := bound_mono _ _ h
    _ = total := bound_last hpos

/-- The portion of a worker lies between two bounds, and none of the machine
arithmetic leaves its range. -/
theorem of_eq (htotal : Word.i64.Fits total) (hw : w < chunks) :
    Portion.of total chunks w = .ok ⟨bound total chunks w, bound total chunks (w + 1)⟩ := by
  have hpos : 0 < chunks := Nat.zero_lt_of_lt hw
  have hstart : bound total chunks w ≤ total := bound_le_total (Nat.le_of_lt hw) hpos
  have hstop : bound total chunks (w + 1) ≤ total := bound_le_total hw hpos
  have hsucc := bound_succ total chunks w
  rw [Word.fits_i64] at htotal
  -- what the machine computes, as natural numbers
  have hmul : (w : Int) * (total / chunks : Nat) = (w * (total / chunks) : Nat) := by simp
  have hle : w * (total / chunks) ≤ bound total chunks w := Nat.le_add_right ..
  have hfront : ((w * (total / chunks) : Nat) : Int) + min (w : Int) (total % chunks : Nat) =
      (bound total chunks w : Nat) := by
    simp only [bound]
    omega
  have hlength : ((total / chunks : Nat) : Int) +
      (if (w : Int) < (total % chunks : Nat) then 1 else 0) =
        (bound total chunks (w + 1) : Nat) - (bound total chunks w : Nat) := by
    split <;> split at hsucc <;> omega
  unfold Portion.of
  rw [show max (chunks : Int) 1 = chunks by omega, show max (w : Int) 0 = w by omega]
  simp only [← Int.ofNat_tdiv, ← Int.ofNat_tmod]
  rw [if_neg (by omega), Word.mul_of_fits (by rw [Word.fits_i64, hmul]; omega), ok_bind, hmul,
    Word.add_of_fits (by rw [Word.fits_i64, hfront]; omega), ok_bind, hfront,
    Word.add_of_fits (by rw [Word.fits_i64, hlength]; omega), ok_bind, hlength,
    Word.add_of_fits (by rw [Word.fits_i64]; omega), ok_bind]
  simp only [pure, Except.pure]
  congr 2
  omega

theorem length_eq (htotal : Word.i64.Fits total) (hw : w < chunks) :
    Portion.length ⟨bound total chunks w, bound total chunks (w + 1)⟩ =
      .ok ((bound total chunks (w + 1) - bound total chunks w : Nat) : Int) := by
  have hmono := bound_le_succ total chunks w
  have hstop : bound total chunks (w + 1) ≤ total :=
    bound_le_total hw (Nat.zero_lt_of_lt hw)
  rw [Word.fits_i64] at htotal
  rw [Portion.length, Int.ofNat_sub hmono]
  apply Word.sub_of_fits
  rw [Word.fits_i64]
  simp only
  omega

theorem exists_bound {n i : Nat} (hi : i < bound total chunks n) :
    ∃ w, w < n ∧ bound total chunks w ≤ i ∧ i < bound total chunks (w + 1) := by
  induction n with
  | zero => simp at hi
  | succ n ih =>
      by_cases hn : i < bound total chunks n
      · obtain ⟨w, hw, hin⟩ := ih hn
        exact ⟨w, Nat.lt_succ_of_lt hw, hin⟩
      · exact ⟨n, Nat.lt_succ_self n, Nat.le_of_not_lt hn, hi⟩

/-- Every item is in one chunk. -/
theorem existsUnique_bound (hpos : 0 < chunks) {i : Nat} (hi : i < total) :
    ∃! w, w < chunks ∧ bound total chunks w ≤ i ∧ i < bound total chunks (w + 1) := by
  obtain ⟨w, hw, hlo, hhi⟩ := exists_bound (n := chunks) (by rw [bound_last hpos]; exact hi)
  refine ⟨w, ⟨hw, hlo, hhi⟩, ?_⟩
  rintro v ⟨-, hvlo, hvhi⟩
  -- of two different chunks, the earlier one ends before the later one begins
  rcases Nat.lt_trichotomy v w with hlt | heq | hlt
  · have : bound total chunks (v + 1) ≤ bound total chunks w := bound_mono _ _ hlt
    omega
  · exact heq
  · have : bound total chunks (w + 1) ≤ bound total chunks v := bound_mono _ _ hlt
    omega

/-! ### The portion of any worker -/

/-- Fewer than one chunk are as good as one, and workers below zero as good as the first. -/
theorem of_congr {total chunks chunks' worker worker' : Int}
    (hchunks : max chunks 1 = max chunks' 1) (hworker : max worker 0 = max worker' 0) :
    Portion.of total chunks worker = Portion.of total chunks' worker' := by
  unfold Portion.of
  rw [hchunks, hworker]

/-- The portion of a worker between two bounds. Workers below zero have the first
one, and behind the last chunk all bounds are the total. -/
def between (total chunks : Nat) (worker : Int) : Portion :=
  ⟨bound total chunks (min worker.toNat chunks), bound total chunks (min (worker.toNat + 1) chunks)⟩

theorem between_of_lt {worker : Int} (hw : worker.toNat < chunks) :
    between total chunks worker =
      ⟨bound total chunks worker.toNat, bound total chunks (worker.toNat + 1)⟩ := by
  rw [between, Nat.min_eq_left (Nat.le_of_lt hw), Nat.min_eq_left hw]

theorem between_of_le {worker : Int} (hpos : 0 < chunks) (hw : chunks ≤ worker.toNat) :
    between total chunks worker = ⟨total, total⟩ := by
  rw [between, Nat.min_eq_right hw, Nat.min_eq_right (Nat.le_succ_of_le hw), bound_last hpos]

theorem stop_between_le (hpos : 0 < chunks) (worker : Int) :
    (between total chunks worker).stop ≤ total :=
  Int.ofNat_le.mpr (bound_le_total (Nat.min_le_right ..) hpos)

theorem of_eq_between (htotal : Word.i64.Fits total) (chunks worker : Int) :
    Portion.of total chunks worker = .ok (between total (max chunks 1).toNat worker) := by
  have hpos : 0 < (max chunks 1).toNat := by omega
  by_cases hw : worker.toNat < (max chunks 1).toNat
  · have hnat : Portion.of total chunks worker =
        Portion.of total (max chunks 1).toNat worker.toNat := of_congr (by omega) (by omega)
    rw [hnat, of_eq htotal hw, between_of_lt hw]
  · rw [between_of_le hpos (Nat.le_of_not_lt hw), Portion.of, if_pos (by omega)]
    rfl

theorem length_between (htotal : Word.i64.Fits total) (hpos : 0 < chunks) (worker : Int) :
    (between total chunks worker).length =
      .ok ((between total chunks worker).stop - (between total chunks worker).start) := by
  have hstop : (between total chunks worker).stop ≤ total := stop_between_le hpos worker
  have hmono : (between total chunks worker).start ≤ (between total chunks worker).stop :=
    Int.ofNat_le.mpr (bound_mono _ _ (by omega))
  have hstart : 0 ≤ (between total chunks worker).start := Int.natCast_nonneg _
  rw [Word.fits_i64] at htotal
  apply Word.sub_of_fits
  rw [Word.fits_i64]
  omega

def Holds (p : Portion) (i : Int) : Prop := p.start ≤ i ∧ i < p.stop

/-- The portions split the items below the total into chunks as evenly as possible. -/
structure Balanced (total chunks : Int) (p : Int → Portion) : Prop where
  first : (p 0).start = 0
  /-- A portion ends where the next one begins. -/
  next : ∀ w, 0 ≤ w → (p w).stop = (p (w + 1)).start
  size : ∀ w, 0 ≤ w → w < chunks →
    (p w).stop - (p w).start = total / chunks + if w < total % chunks then 1 else 0
  /-- A worker without a chunk has nothing. -/
  surplus : ∀ w, chunks ≤ w → p w = ⟨total, total⟩
  within : ∀ w i, (p w).Holds i → 0 ≤ i ∧ i < total
  /-- Every item is in one chunk. -/
  tiles : ∀ i, 0 ≤ i → i < total → ∃! w, (0 ≤ w ∧ w < chunks) ∧ (p w).Holds i

theorem size_between {worker : Int} (hnonneg : 0 ≤ worker) (hw : worker < chunks) :
    (between total chunks worker).stop - (between total chunks worker).start =
      (total : Int) / chunks + if worker < (total : Int) % chunks then 1 else 0 := by
  have hsucc := bound_succ total chunks worker.toNat
  rw [between_of_lt (by omega), ← Int.natCast_ediv, ← Int.natCast_emod]
  simp only
  split <;> split at hsucc <;> omega

theorem tiles_between (hpos : 0 < chunks) {i : Int} (hnonneg : 0 ≤ i) (hi : i < total) :
    ∃! w, (0 ≤ w ∧ w < (chunks : Int)) ∧ (between total chunks w).Holds i := by
  have hitem : i.toNat < total := by omega
  obtain ⟨w, ⟨hw, hlo, hhi⟩, hunique⟩ := existsUnique_bound hpos hitem
  refine ⟨w, ⟨⟨by omega, by omega⟩, ?_⟩, ?_⟩
  · rw [between_of_lt (by omega), Int.toNat_natCast, Holds]
    simp only
    omega
  · rintro v ⟨⟨hv, hlt⟩, hheld⟩
    rw [between_of_lt (by omega)] at hheld
    simp only [Holds] at hheld
    have := hunique v.toNat ⟨by omega, by omega, by omega⟩
    omega

theorem balanced_between (hpos : 0 < chunks) : Balanced total chunks (between total chunks) where
  first := by simp [between]
  next w hw := by
    rw [between, between, show (w + 1).toNat = w.toNat + 1 by omega]
  size w hnonneg hw := size_between hnonneg hw
  surplus w hw := between_of_le hpos (by omega)
  within w i hi := by
    have hstart : 0 ≤ (between total chunks w).start := Int.natCast_nonneg _
    exact ⟨Int.le_trans hstart hi.1, Int.lt_of_lt_of_le hi.2 (stop_between_le hpos w)⟩
  tiles i hnonneg hi := tiles_between hpos hnonneg hi

end Portion

theorem itemOffset_of_nonneg {row start : Int} (hrow : Word.i64.Fits row) (hstart : 0 ≤ start)
    (count : Int) :
    itemOffset row start count =
      .ok (if start ≤ row ∧ row < start + count then row - start else -1) := by
  rw [Word.fits_i64] at hrow
  unfold itemOffset
  by_cases hfirst : start ≤ row
  · rw [if_pos hfirst, Word.sub_of_fits (by rw [Word.fits_i64]; omega), ok_bind]
    by_cases hlast : row < start + count
    · rw [if_pos (by omega), if_pos ⟨hfirst, hlast⟩]
      rfl
    · rw [if_neg (by omega), if_neg fun h => hlast h.2]
      rfl
  · rw [if_neg hfirst, if_neg fun h => hfirst h.1]

/-- The chunk that takes in an item gives its offset there, and every other one minus one. -/
theorem Portion.Balanced.itemOffset_eq {total chunks : Int} {p : Int → Portion}
    (h : Balanced total chunks p) (htotal : Word.i64.Fits total)
    (hstart : ∀ w, 0 ≤ (p w).start) {i : Int} (hnonneg : 0 ≤ i) (hi : i < total) :
    ∃ w, 0 ≤ w ∧ w < chunks ∧ (p w).Holds i ∧ ∀ v, 0 ≤ v → v < chunks →
      itemOffset i (p v).start ((p v).stop - (p v).start) =
        .ok (if v = w then i - (p w).start else -1) := by
  obtain ⟨w, ⟨⟨hw, hlt⟩, hheld⟩, hunique⟩ := h.tiles i hnonneg hi
  refine ⟨w, hw, hlt, hheld, fun v hv hvlt => ?_⟩
  rw [Word.fits_i64] at htotal
  rw [itemOffset_of_nonneg (by rw [Word.fits_i64]; omega) (hstart v)]
  by_cases hvw : v = w
  · subst hvw
    rw [if_pos rfl, if_pos (by rw [Holds] at hheld; omega)]
  · have hnot : ¬ (p v).Holds i := fun hmem => hvw (hunique v ⟨⟨hv, hvlt⟩, hmem⟩)
    rw [if_neg hvw, if_neg (by rw [Holds] at hnot; omega)]

/-- Any number of items that a word can hold is split evenly into any number of chunks,
fewer than one counting as one, and the machine arithmetic never leaves its range: not for
the portion of any worker, nor for the place of an item in any chunk. How wide worker numbers are
does not matter; 32 bits name every chunk as long as there are at most 2147483648. -/
theorem Portion.balanced_partition {total : Int} (chunks : Int) (hnonneg : 0 ≤ total)
    (htotal : Word.i64.Fits total) :
    ∃ p : Int → Portion,
      (∀ w, Portion.of total chunks w = .ok (p w) ∧
        (p w).length = .ok ((p w).stop - (p w).start)) ∧
      Balanced total (max chunks 1) p ∧
      ∀ i, 0 ≤ i → i < total → ∃ w, 0 ≤ w ∧ w < max chunks 1 ∧ (p w).Holds i ∧
        ∀ v, 0 ≤ v → v < max chunks 1 →
          itemOffset i (p v).start ((p v).stop - (p v).start) =
            .ok (if v = w then i - (p w).start else -1) := by
  obtain ⟨items, rfl⟩ := Int.eq_ofNat_of_zero_le hnonneg
  have hpos : 0 < (max chunks 1).toNat := by omega
  have hbalanced : Balanced items (max chunks 1).toNat (between items (max chunks 1).toNat) :=
    balanced_between hpos
  rw [show (((max chunks 1).toNat : Nat) : Int) = max chunks 1 by omega] at hbalanced
  refine ⟨between items (max chunks 1).toNat, fun w => ?_, hbalanced, fun i hi hlt => ?_⟩
  · exact ⟨of_eq_between htotal chunks w, length_between htotal hpos w⟩
  · exact hbalanced.itemOffset_eq htotal (fun w => Int.natCast_nonneg _) hi hlt

/-- The greatest total in the greatest number of chunks that workers of 32 bits can name. All
chunks but the last have the same length. -/
theorem Portion.fullWord_partition :
    (0 : Int) ≤ 9223372036854775807 ∧ Word.i64.Fits 9223372036854775807 ∧
      ∃ p : Int → Portion,
        (∀ w, Portion.of 9223372036854775807 2147483648 w = .ok (p w)) ∧ (p 0).start = 0 ∧
        (p 2147483646).stop - (p 2147483646).start = 4294967296 ∧
        (p 2147483647).stop - (p 2147483647).start = 4294967295 ∧
        (p 2147483647).stop = 9223372036854775807 ∧
        ∃ w, (p w).Holds 9223372036854775806 ∧
          itemOffset 9223372036854775806 (p w).start ((p w).stop - (p w).start) =
            .ok (9223372036854775806 - (p w).start) := by
  have hfits : Word.i64.Fits 9223372036854775807 := by decide
  obtain ⟨p, hof, hbalanced, hitem⟩ := balanced_partition 2147483648 (by decide) hfits
  obtain ⟨w, hw, hlt, hheld, hoffset⟩ := hitem 9223372036854775806 (by decide) (by decide)
  refine ⟨by decide, hfits, p, fun w => (hof w).1, hbalanced.first, ?_, ?_, ?_, w, hheld, ?_⟩
  · rw [hbalanced.size _ (by decide) (by decide)]
    decide
  · rw [hbalanced.size _ (by decide) (by decide)]
    decide
  · exact (hbalanced.next _ (by decide)).trans (by rw [hbalanced.surplus _ (by decide)])
  · rw [hoffset w hw hlt, if_pos rfl]

theorem flatMap_slices {α : Type} (xs : List α) {b : Nat → Nat} (hzero : b 0 = 0)
    (hmono : ∀ w, b w ≤ b (w + 1)) (n : Nat) :
    ((List.range n).flatMap fun w => (xs.drop (b w)).take (b (w + 1) - b w)) =
      xs.take (b n) := by
  induction n with
  | zero => simp [hzero]
  | succ n ih =>
      have hsplit : b n + (b (n + 1) - b n) = b (n + 1) := by
        have := hmono n
        omega
      rw [List.range_succ, List.flatMap_append, ih, List.flatMap_singleton, ← List.take_add, hsplit]

end SpmdArrays.Spmd
