import SpmdArrays.Proofs.Spmd.Schedules

/-!
Runs that come to their end. The run of a world is one of its interleavings, and
nobody can move when it is over. Where all ranks have the same meetings in the same
order and none of them waits for a message, this means that every rank is through
with its program: a rank that still waited at the barrier would be the first of all
to arrive there so often.
-/

namespace SpmdArrays.Spmd.World

variable {w v : World} {r : Nat} {k : Rank}

theorem exists_step_of_moveFrom? {rs : List Nat} (h : w.moveFrom? rs = some v) :
    ∃ r, w.step? r = some v := by
  induction rs with
  | nil => cases h
  | cons r rs ih =>
      simp only [moveFrom?] at h
      split at h
      · rename_i u hu
        cases h
        exact ⟨r, hu⟩
      · exact ih h

theorem step?_eq_none_of_moveFrom? {rs : List Nat} (h : w.moveFrom? rs = none) :
    ∀ r ∈ rs, w.step? r = none := by
  induction rs with
  | nil => simp
  | cons r rs ih =>
      simp only [moveFrom?] at h
      split at h
      · cases h
      · rename_i hr
        simpa [hr] using ih h

theorem complete_of_moveFrom? (h : w.moveFrom? (List.range w.size) = none) : w.Complete := by
  intro r
  by_cases hr : r < w.size
  · exact step?_eq_none_of_moveFrom? h r (List.mem_range.mpr hr)
  · have hnone : w.ranks[r]? = none := List.getElem?_eq_none (Nat.le_of_not_lt hr)
    simp [step?, hnone]

/-- The run of a world is an interleaving that goes on until nobody can move. -/
theorem exists_follow_run (w : World) : ∃ rs, w.follow rs = some w.run ∧ w.run.Complete := by
  induction w using run.induct with
  | case1 w hmove =>
      have hrun : w.run = w := by
        rw [run]
        split
        · rfl
        · rename_i v hv
          cases hmove.symm.trans hv
      rw [hrun]
      exact ⟨[], rfl, complete_of_moveFrom? hmove⟩
  | case2 w v hmove ih =>
      have hrun : w.run = v.run := by
        rw [run]
        split
        · rename_i hnone
          cases hmove.symm.trans hnone
        · rename_i u hu
          cases hmove.symm.trans hu
          rfl
      obtain ⟨rs, hfollow, hcomplete⟩ := ih
      obtain ⟨r, hr⟩ := exists_step_of_moveFrom? hmove
      rw [hrun]
      refine ⟨r :: rs, ?_, hcomplete⟩
      simp only [follow, hr, hfollow]

/-- Where all ranks have the same meetings and nobody receives, a complete
interleaving takes every rank through its program. -/
theorem op?_eq_none_of_complete {size : Nat} {programs : Nat → List Op}
    (hprogs : w.OnPrograms size programs) (hstep : w.InStep programs) (hcomplete : w.Complete)
    (hsame : ∀ p < size, ∀ q < size, meetings (programs p) = meetings (programs q))
    (hreceive : ∀ p < size, ∀ op ∈ programs p, ∀ tickets source tag,
      op.plan p size tickets ≠ .receive source tag)
    (hk : w.ranks[r]? = some k) : k.op? = none := by
  -- a rank that is not through with its program waits at the barrier
  have hwaits : ∀ {p : Nat} {kp : Rank}, w.ranks[p]? = some kp → kp.op? ≠ none →
      kp.phase.blocked? = some w.generation := by
    intro p kp hp hne
    obtain ⟨op, hcur⟩ := Option.ne_none_iff_exists'.mp hne
    rcases waits_of_step?_eq_none (hcomplete p) hp hcur with hblocked | ⟨-, s, tag, hplan, -⟩
    · exact hblocked
    · have hop := List.mem_of_getElem? ((hprogs.rank hp).getElem?_program hcur)
      rw [hprogs.size_eq] at hplan
      exact absurd hplan (hreceive p (hprogs.lt_size hp) op hop _ _ _)
  apply Classical.byContradiction
  intro hne
  have hblocked := hwaits hk hne
  obtain ⟨q, kq, hq, hfree⟩ := hstep.exists_not_waiting
  have hdone : kq.op? = none := Classical.byContradiction fun h => hfree (hwaits hq h)
  -- the rank that is through has arrived as often as any rank can
  have hall : arrivals (meetings (programs q)) ≤ kq.arrivals (programs q) := by
    have hlen : (programs q).length ≤ kq.answers.length := by
      rwa [(hprogs.rank hq).op?_eq, List.getElem?_eq_none_iff] at hdone
    rw [Rank.arrivals, List.take_of_length_le hlen]
    exact Nat.le_add_right ..
  have hgen := (hstep.rank hq).arrivals_eq hfree
  have hmore := ((Rank.keepsStep_of_blocked hblocked).mp (hstep.rank hk)).1
  have hle := Nat.le_trans (hprogs.rank hk).arrivals_le
    (arrivals_le_arrivals (List.take_prefix ..))
  rw [hsame r (hprogs.lt_size hk) q (hprogs.lt_size hq)] at hle
  omega

end SpmdArrays.Spmd.World
