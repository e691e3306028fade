import SpmdArrays.Proofs.Store.Slabs
import SpmdArrays.Store.Basic

/-!
How the reference device answers for slabs of a dataset it knows. The cells that are listed
for a slab are read one by one, and a write puts each element of the source in its own cell
and leaves all other cells alone. For slabs that begin at the origin the cells are those of
its positions, in their order. A slab that does not lie inside is refused, and only the
record of the call remains.
-/

namespace SpmdArrays

namespace Store

/-! ### Writing cells -/

theorem size_foldl_set (ps : List (Nat × Float)) (stored : Array Float) :
    (ps.foldl (fun v c => v.setIfInBounds c.1 c.2) stored).size = stored.size := by
  induction ps generalizing stored with
  | nil => rfl
  | cons p ps ih => rw [List.foldl_cons, ih, Array.size_setIfInBounds]

theorem getElem?_foldl_set_of_notMem {ps : List (Nat × Float)} {i : Nat}
    (h : i ∉ ps.map Prod.fst) (stored : Array Float) :
    (ps.foldl (fun v c => v.setIfInBounds c.1 c.2) stored)[i]? = stored[i]? := by
  induction ps generalizing stored with
  | nil => rfl
  | cons p ps ih =>
      rw [List.map_cons, List.mem_cons, not_or] at h
      rw [List.foldl_cons, ih h.2, Array.getElem?_setIfInBounds_ne (Ne.symm h.1)]

theorem getElem?_foldl_set_of_mem {ps : List (Nat × Float)} (hnodup : (ps.map Prod.fst).Nodup)
    {i : Nat} {x : Float} (h : (i, x) ∈ ps) {stored : Array Float} (hi : i < stored.size) :
    (ps.foldl (fun v c => v.setIfInBounds c.1 c.2) stored)[i]? = some x := by
  induction ps generalizing stored with
  | nil => simp at h
  | cons p ps ih =>
      rw [List.map_cons, List.nodup_cons] at hnodup
      rw [List.foldl_cons]
      rcases List.mem_cons.mp h with rfl | hmem
      · rw [getElem?_foldl_set_of_notMem hnodup.1, Array.getElem?_setIfInBounds_self_of_lt hi]
      · exact ih hnodup.2 hmem (by rwa [Array.size_setIfInBounds])

variable {stored src : Array Float} {cells : List Nat}

theorem size_scatter : (scatter stored cells src).size = stored.size := size_foldl_set ..

theorem scatter_of_notMem (hlen : cells.length ≤ src.size) {i : Nat} (h : i ∉ cells) :
    (scatter stored cells src)[i]? = stored[i]? := by
  apply getElem?_foldl_set_of_notMem
  rwa [List.map_fst_zip (by simpa using hlen)]

theorem scatter_at (hlen : cells.length ≤ src.size) (hnodup : cells.Nodup) {k i : Nat}
    (hk : cells[k]? = some i) (hi : i < stored.size) :
    (scatter stored cells src)[i]? = src[k]? := by
  have hlt : k < src.size := Nat.lt_of_lt_of_le (List.getElem?_eq_some_iff.mp hk).1 hlen
  have hpair : (cells.zip src.toList)[k]? = some (i, src[k]) := by
    rw [List.getElem?_zip_eq_some]
    exact ⟨hk, by simp [hlt]⟩
  rw [Array.getElem?_eq_getElem hlt]
  apply getElem?_foldl_set_of_mem _ (List.mem_of_getElem? hpair) hi
  rwa [List.map_fst_zip (by simpa using hlen)]

/-! ### Answers -/

variable {s : Store} {file : Int} {name source path : String} {info : DatasetInfo}

theorem size_eq (hd : s.dataset? file name = some (source, path, info)) (dim : Nat) :
    s.size file name dim = (info.shape[dim]?.map Slab.announced).getD refused := by
  unfold size
  rw [hd]
  simp only [Int.toNat_natCast]
  rw [if_neg (by omega)]
  cases info.shape[dim]? with
  | none => rfl
  | some extent =>
      rw [Option.map_some, Option.getD_some, Slab.announced, Int.ofNat_eq_natCast]

theorem answer_size (hd : s.dataset? file name = some (source, path, info)) (dim : Nat) :
    answer (.size file name dim) s =
      (.ok ⟨(info.shape[dim]?.map Slab.announced).getD refused, #[]⟩,
        s.record (.size name dim)) := by
  rw [← size_eq hd]
  rfl

theorem answer_of_read {start count : List Int} {stride : Int} {dest : Array Float} {reply : Reply}
    (h : s.read file name start count stride dest = .ok reply) :
    answer (.read file name start count stride dest) s =
      (.ok reply, s.record (.read name start count)) := by
  have hserve : (s.record (.read name start count)).serve
      (.read file name start count stride dest) =
      .ok (reply, s.record (.read name start count)) := by
    change (s.read file name start count stride dest >>= fun r => pure (r, _)) = _
    rw [h]
    rfl
  simp only [answer, Call.ofRequest, hserve]

theorem answer_of_write {start count : List Int} {stride status : Int} {src : Array Float}
    {t : Store} (h : (s.record (.write name start count)).write file name start count stride src =
      .ok (status, t)) :
    answer (.write file name start count stride src) s = (.ok ⟨status, #[]⟩, t) := by
  have hserve : (s.record (.write name start count)).serve
      (.write file name start count stride src) = .ok (⟨status, #[]⟩, t) := by
    simp only [serve, h, ok_bind]
    rfl
  simp only [answer, Call.ofRequest, hserve]

theorem read_of_cells (hd : s.dataset? file name = some (source, path, info))
    {start count : List Int} {stride : Int}
    (hcells : Slab.indices info.shape start count stride = .ok (some cells)) {dest : Array Float}
    (hdest : cells.length ≤ dest.size) :
    s.read file name start count stride dest =
      .ok ⟨0, (cells.map (element (s.contents.get? source path))).toArray ++
        dest.drop cells.length⟩ := by
  unfold read
  rw [hd]
  simp only [hcells, ok_bind, if_neg (Nat.not_lt.mpr hdest)]
  rfl

/-- The elements of a dataset before it is written. -/
def initial (s : Store) (source path : String) (info : DatasetInfo) : Array Float :=
  (s.contents.get? source path).getD (Array.replicate info.shape.prod 0)

theorem size_initial
    (h : ∀ v, s.contents.get? source path = some v → v.size = info.shape.prod) :
    (s.initial source path info).size = info.shape.prod := by
  unfold initial
  cases hv : s.contents.get? source path with
  | none => simp
  | some v => exact h v hv

theorem zeros_of_addressable (hshape : Addressable info.shape) :
    zeros info = .ok (Array.replicate info.shape.prod 0) := by
  unfold zeros DatasetInfo.size
  rw [Word.product_of_addressable (by decide) (by decide) hshape, ok_bind,
    reserve_of_addressable hshape, ok_bind]
  rfl

theorem write_of_cells (hd : s.dataset? file name = some (source, path, info))
    (hshape : Addressable info.shape) {start count : List Int} {stride : Int}
    (hcells : Slab.indices info.shape start count stride = .ok (some cells))
    (hsrc : cells.length ≤ src.size) :
    s.write file name start count stride src =
      .ok (0, s.withContents source path (scatter (s.initial source path info) cells src)) := by
  unfold write
  rw [hd]
  simp only [hcells, ok_bind, if_neg (Nat.not_lt.mpr hsrc), initial]
  cases s.contents.get? source path with
  | some v => rfl
  | none =>
      simp only [zeros_of_addressable hshape, ok_bind]
      rfl

abbrev Takes (shape counts : List Nat) : Prop := InShape counts shape ∧ Slab.Signed counts

theorem answer_read (hd : s.dataset? file name = some (source, path, info))
    (hshape : Addressable info.shape) {counts : List Nat}
    (hcounts : Slab.Unsigned counts) (dest : Array Float)
    (hdest : dest.size = counts.prod) :
    answer (.read file name (List.replicate counts.length 0) (counts.map Slab.announced) 0 dest) s =
      (.ok (if Takes info.shape counts then
          ⟨0, ((Slab.positions counts).map fun p =>
            element (s.contents.get? source path) (Slab.flat info.shape p)).toArray⟩
        else ⟨refused, dest⟩),
        s.record (.read name (List.replicate counts.length 0) (counts.map Slab.announced))) := by
  apply answer_of_read
  have hcells := Slab.indices_announced hshape hcounts
  by_cases h : Takes info.shape counts
  · have hlen : ((Slab.positions counts).map (Slab.flat info.shape)).length = dest.size := by
      rw [List.length_map, Slab.length_positions, hdest]
    rw [if_pos h] at hcells ⊢
    rw [read_of_cells hd hcells (Nat.le_of_eq hlen), hlen]
    simp [Function.comp_def]
  · rw [if_neg h] at hcells ⊢
    unfold read
    rw [hd]
    simp only [hcells, ok_bind]
    rfl

theorem write_eq (hd : s.dataset? file name = some (source, path, info))
    (hshape : Addressable info.shape) {counts : List Nat}
    (hcounts : Slab.Unsigned counts) {src : Array Float}
    (hsrc : src.size = counts.prod) :
    s.write file name (List.replicate counts.length 0) (counts.map Slab.announced) 0 src =
      .ok (if Takes info.shape counts then
          (0, s.withContents source path (scatter (s.initial source path info)
            ((Slab.positions counts).map (Slab.flat info.shape)) src))
        else (refused, s)) := by
  have hcells := Slab.indices_announced hshape hcounts
  by_cases h : Takes info.shape counts
  · rw [if_pos h] at hcells ⊢
    apply write_of_cells hd hshape hcells
    rw [List.length_map, Slab.length_positions, hsrc]
  · rw [if_neg h] at hcells ⊢
    unfold write
    rw [hd]
    simp only [hcells, ok_bind]
    rfl

theorem answer_write (hd : s.dataset? file name = some (source, path, info))
    (hshape : Addressable info.shape) {counts : List Nat}
    (hcounts : Slab.Unsigned counts) {src : Array Float}
    (hsrc : src.size = counts.prod) :
    answer (.write file name (List.replicate counts.length 0) (counts.map Slab.announced) 0 src) s =
      let t := s.record (.write name (List.replicate counts.length 0) (counts.map Slab.announced))
      if Takes info.shape counts then
        (.ok ⟨0, #[]⟩, t.withContents source path (scatter (s.initial source path info)
          ((Slab.positions counts).map (Slab.flat info.shape)) src))
      else (.ok ⟨refused, #[]⟩, t) := by
  have hrec : (s.record (.write name (List.replicate counts.length 0)
      (counts.map Slab.announced))).dataset? file name = some (source, path, info) := hd
  have hwrite := write_eq hrec hshape hcounts hsrc
  by_cases h : Takes info.shape counts
  · simp only [if_pos h] at hwrite ⊢
    exact answer_of_write hwrite
  · simp only [if_neg h] at hwrite ⊢
    exact answer_of_write hwrite

end Store

end SpmdArrays
