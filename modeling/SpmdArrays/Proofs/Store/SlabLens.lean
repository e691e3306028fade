import SpmdArrays.Proofs.Store.Answers
import SpmdArrays.Proofs.Store.Likeness
import SpmdArrays.Proofs.Store.SlabListing

/-!
Reading and writing slabs of a dataset, one against the other. What was written is read back,
and what lies outside the slab reads as before. Of two writes to one slab only the second
leaves a trace. All of this holds through any two handles that lead to the dataset, for slabs
of any rank that overlap in any way, and whether or not the dataset had elements stored before.
Writing back what was read leaves no trace either, with one exception: it stores the elements,
and if nothing was stored of the dataset before, a new description with another number of cells
finds elements of the old number.
-/

namespace SpmdArrays

namespace Store

/-! ### Cells -/

section

variable {v src src' : Array Float} {cells : List Nat}

/-- Elements that go to the same cells replace each other. -/
theorem scatter_scatter (hnodup : cells.Nodup) (hcells : ∀ i ∈ cells, i < v.size)
    (hsrc : cells.length ≤ src.size) (hsrc' : cells.length ≤ src'.size) :
    scatter (scatter v cells src) cells src' = scatter v cells src' := by
  apply Array.ext_getElem?
  intro i
  by_cases hi : i ∈ cells
  · obtain ⟨k, hk⟩ := List.mem_iff_getElem?.mp hi
    have hlt := hcells i hi
    rw [scatter_at hsrc' hnodup hk (by rwa [size_scatter]), scatter_at hsrc' hnodup hk hlt]
  · rw [scatter_of_notMem hsrc' hi, scatter_of_notMem hsrc hi, scatter_of_notMem hsrc' hi]

/-- Elements that are in their cells already change nothing. -/
theorem scatter_self (hnodup : cells.Nodup) (hcells : ∀ i ∈ cells, i < v.size)
    (hsrc : cells.length ≤ src.size) (h : ∀ k i : Nat, cells[k]? = some i → src[k]? = v[i]?) :
    scatter v cells src = v := by
  apply Array.ext_getElem?
  intro i
  by_cases hi : i ∈ cells
  · obtain ⟨k, hk⟩ := List.mem_iff_getElem?.mp hi
    rw [scatter_at hsrc hnodup hk (hcells i hi), h k i hk]
  · rw [scatter_of_notMem hsrc hi]

theorem some_element {i : Nat} (hi : i < v.size) : some (element (some v) i) = v[i]? := by
  rw [element, Option.bind_some, Array.getElem?_eq_getElem hi, Option.getD_some]

theorem getElem?_filled {f : Nat → Float} {rest : Array Float} {k i : Nat}
    (hk : cells[k]? = some i) : ((cells.map f).toArray ++ rest)[k]? = some (f i) := by
  have hlt : k < (cells.map f).toArray.size := by
    simpa using (List.getElem?_eq_some_iff.mp hk).1
  rw [Array.getElem?_append_left hlt, List.getElem?_toArray, List.getElem?_map, hk, Option.map_some]

theorem getElem?_rest {f : Nat → Float} {rest : Array Float} {k : Nat} (hk : cells.length ≤ k) :
    ((cells.map f).toArray ++ rest)[k]? = rest[k - cells.length]? := by
  rw [Array.getElem?_append_right (by simpa using hk)]
  simp

theorem map_element_scatter (hnodup : cells.Nodup) (hcells : ∀ i ∈ cells, i < v.size)
    (hsrc : cells.length ≤ src.size) :
    (cells.map (element (some (scatter v cells src)))).toArray = src.take cells.length := by
  apply Array.ext_getElem?
  intro k
  rw [List.getElem?_toArray, List.getElem?_map]
  cases hk : cells[k]? with
  | none =>
      rw [List.getElem?_eq_none_iff] at hk
      rw [Option.map_none, Array.getElem?_eq_none]
      simp [hk]
  | some i =>
      have hi := hcells i (List.mem_of_getElem? hk)
      have hlt := (List.getElem?_eq_some_iff.mp hk).1
      rw [Option.map_some, some_element (by rwa [size_scatter]), scatter_at hsrc hnodup hk hi]
      rw [Array.take_eq_extract, Array.getElem?_extract, if_pos (by omega), Nat.zero_add]

end

/-! ### Granted transfers -/

variable {s t : Store} {file : Int} {name source path : String} {info : DatasetInfo}
  {start count : List Int} {stride : Int}

theorem element_initial (s : Store) (source path : String) (info : DatasetInfo) :
    element (s.contents.get? source path) = element (some (s.initial source path info)) := by
  unfold initial
  cases s.contents.get? source path with
  | some v => rfl
  | none =>
      funext i
      rw [Option.getD_none, Alike.element_replicate]
      rfl

theorem initial_withContents (s : Store) (source path : String) (info : DatasetInfo)
    (v : Array Float) : (s.withContents source path v).initial source path info = v := by
  simp [initial, withContents, BySource.get?_insert]

theorem exists_cells_of_read {dest b : Array Float}
    (hd : s.dataset? file name = some (source, path, info))
    (h : (answer (.read file name start count stride dest) s).1 = .ok ⟨0, b⟩) :
    ∃ cells, Slab.indices info.shape start count stride = .ok (some cells) ∧
      cells.length ≤ dest.size ∧
      b = (cells.map (element (s.contents.get? source path))).toArray ++
        dest.drop cells.length := by
  cases hread : s.read file name start count stride dest with
  | error fault =>
      have hrecorded : (s.record (.read name start count)).read file name start count stride dest =
          .error fault := hread
      simp only [answer, serve, Call.ofRequest, hrecorded] at h
      cases h
  | ok reply =>
      rw [answer_of_read hread] at h
      cases h
      rcases read_ok hread with
        hrefused | ⟨source', path', info', cells, hd', hcells, hdest, hreply⟩
      · cases congrArg Reply.status hrefused
      · cases hd.symm.trans hd'
        exact ⟨cells, hcells, hdest, congrArg Reply.buffer hreply⟩

theorem answer_write_of_cells (hd : s.dataset? file name = some (source, path, info))
    (hshape : Addressable info.shape) {cells : List Nat}
    (hcells : Slab.indices info.shape start count stride = .ok (some cells)) {src : Array Float}
    (hsrc : cells.length ≤ src.size) :
    answer (.write file name start count stride src) s =
      (.ok ⟨0, #[]⟩, (s.record (.write name start count)).withContents source path
        (scatter (s.initial source path info) cells src)) := by
  have hrecorded : (s.record (.write name start count)).dataset? file name =
      some (source, path, info) := hd
  exact answer_of_write (write_of_cells hrecorded hshape hcells hsrc)

theorem exists_cells_of_write {src : Array Float}
    (hd : s.dataset? file name = some (source, path, info))
    (h : (answer (.write file name start count stride src) s).1 = .ok ⟨0, #[]⟩) :
    ∃ cells, Slab.indices info.shape start count stride = .ok (some cells) ∧
      cells.length ≤ src.size := by
  cases hwrite : (s.record (.write name start count)).write file name start count stride src with
  | error fault =>
      simp only [answer, serve, Call.ofRequest, hwrite] at h
      cases h
  | ok p =>
      obtain ⟨status, t⟩ := p
      rw [answer_of_write hwrite] at h
      cases h
      rcases write_ok hwrite with
        ⟨hrefused, -⟩ | ⟨source', path', info', cells, stored, hd', hcells, hsrc, -⟩
      · cases hrefused
      · cases hd.symm.trans hd'
        exact ⟨cells, hcells, hsrc⟩

/-! ### The laws -/

/-- What a slab reads as, once other elements were written to a slab that may overlap it. -/
structure Overlaid (start count : List Int) (src : Array Float) (start' count' : List Int)
    (before after : Array Float) : Prop where
  size : after.size = before.size
  /-- Outside the slab that was written, a position has what it had. -/
  outside : ∀ p, Slab.InBox count' p →
    (∀ q, Slab.InBox count q → Slab.place start q ≠ Slab.place start' p) →
    after[Slab.rowMajor (count'.map Int.toNat) p]? =
      before[Slab.rowMajor (count'.map Int.toNat) p]?
  /-- Inside of it, a position has what was written there. -/
  inside : ∀ p q, Slab.InBox count' p → Slab.InBox count q →
    Slab.place start q = Slab.place start' p →
    after[Slab.rowMajor (count'.map Int.toNat) p]? = src[Slab.rowMajor (count.map Int.toNat) q]?
  /-- The rest of the buffer is not touched. -/
  rest : ∀ k, Slab.volume count' ≤ k → after[k]? = before[k]?

section

variable {src : Array Float} {cells : List Nat}
  (hstored : ∀ v, s.contents.get? source path = some v → v.size = info.shape.prod)
  (hcells : Slab.indices info.shape start count stride = .ok (some cells))

include hstored hcells

theorem lt_size_initial {i : Nat} (hi : i ∈ cells) : i < (s.initial source path info).size := by
  rw [size_initial hstored]
  exact Slab.lt_of_mem_indices hcells hi

/-- A slab is overlaid by what is written to another one. -/
theorem overlaid_scatter (hsrc : cells.length ≤ src.size) {start' count' : List Int}
    {stride' : Int} {cells' : List Nat}
    (hcells' : Slab.indices info.shape start' count' stride' = .ok (some cells'))
    (rest : Array Float) :
    Overlaid start count src start' count'
      ((cells'.map (element (some (s.initial source path info)))).toArray ++ rest)
      ((cells'.map (element (some (scatter (s.initial source path info) cells src)))).toArray ++
        rest) := by
  refine ⟨by simp, fun p hp hout => ?_, fun p q hp hq hplace => ?_, fun k hk => ?_⟩
  · have hk := Slab.getElem?_of_listed hcells' hp
    have hnot : Slab.rowMajor info.shape (Slab.place start' p) ∉ cells := by
      intro hmem
      obtain ⟨q, hq, hsame⟩ := Slab.exists_position_of_listed hcells hmem
      exact hout q hq (Slab.rowMajor_inj (Slab.below_place hcells hq)
        (Slab.below_place hcells' hp) hsame.symm)
    rw [getElem?_filled hk, getElem?_filled hk, element, element, Option.bind_some,
      Option.bind_some, scatter_of_notMem hsrc hnot]
  · have hk := Slab.getElem?_of_listed hcells hq
    have hi := lt_size_initial hstored hcells (List.mem_of_getElem? hk)
    rw [hplace] at hk hi
    rw [getElem?_filled (Slab.getElem?_of_listed hcells' hp),
      some_element (by rwa [size_scatter]), scatter_at hsrc (Slab.nodup_indices hcells) hk hi]
  · rw [← Slab.length_of_listed hcells'] at hk
    rw [getElem?_rest hk, getElem?_rest hk]

/-- Writing back what was read leaves the elements as they are. -/
theorem scatter_readBack (rest : Array Float) :
    scatter (s.initial source path info) cells
        ((cells.map (element (s.contents.get? source path))).toArray ++ rest) =
      s.initial source path info := by
  apply scatter_self (Slab.nodup_indices hcells) (fun i => lt_size_initial hstored hcells)
  · simp
  · intro k i hk
    have hi := lt_size_initial hstored hcells (List.mem_of_getElem? hk)
    rw [getElem?_filled hk, element_initial s source path info, some_element hi]

end

theorem answer_read_withContents (hd : s.dataset? file name = some (source, path, info))
    {cells : List Nat} (hcells : Slab.indices info.shape start count stride = .ok (some cells))
    {dest : Array Float} (hdest : cells.length ≤ dest.size) (c : Call) (v : Array Float) :
    (answer (.read file name start count stride dest)
        ((s.record c).withContents source path v)).1 =
      .ok ⟨0, (cells.map (element (some v))).toArray ++ dest.drop cells.length⟩ := by
  have hd' : ((s.record c).withContents source path v).dataset? file name =
      some (source, path, info) := hd
  rw [answer_of_read (read_of_cells hd' hcells hdest)]
  simp [withContents, BySource.get?_insert]

/-- Storing the elements that a dataset is read to have makes no difference. -/
theorem alike_withContents_initial (hinfo : s.catalog.get? source path = some info)
    (hshape : Addressable info.shape) (c : Call) :
    Alike (fun source' path' => source' = source ∧ path' = path) s
      ((s.record c).withContents source path (s.initial source path info)) := by
  refine ⟨rfl, rfl, rfl, fun source' path' => ?_⟩
  simp only [withContents, record, ZeroFilled, BySource.get?_insert]
  by_cases hhere : source = source' ∧ path = path'
  · obtain ⟨rfl, rfl⟩ := hhere
    simp only [and_self, if_true, initial]
    cases hv : s.contents.get? source path with
    | some v => exact .inl rfl
    | none => exact .inr ⟨trivial, info, _, hinfo, zeros_of_addressable hshape, rfl, rfl⟩
  · rw [if_neg hhere]
    exact .inl rfl

theorem alike_withContents_withContents (s : Store) (source path : String) (c c' : Call)
    (v v' : Array Float) :
    Alike (fun _ _ => False) ((s.record c').withContents source path v')
      ((((s.record c).withContents source path v).record c').withContents source path v') := by
  refine ⟨rfl, rfl, rfl, fun source' path' => .inl ?_⟩
  simp only [withContents, record, BySource.get?_insert]
  split <;> rfl

/-- Reading and writing a slab of a dataset through any two handles that lead to it. A write
to a slab that lies inside is granted if the source is long enough. After a write that was
granted, the slab reads as the source, every slab reads as it did outside of the one that was
written, a second write to the slab leaves what it would have left without the first, and
nothing but the elements of the dataset has changed. And writing back what was read is
granted, and can be noticed later only from a request that gives the dataset another number of
cells, when it has been there all along and had no elements stored. -/
theorem slab_lens (s : Store) (source path : String) (info : DatasetInfo)
    (hshape : Addressable info.shape)
    (hstored : ∀ v, s.contents.get? source path = some v → v.size = info.shape.prod)
    (file file' : Int) (name name' : String)
    (hfile : s.dataset? file name = some (source, path, info))
    (hfile' : s.dataset? file' name' = some (source, path, info))
    (start count : List Int) (stride : Int) :
    (∀ src, Slab.Within info.shape start count stride → Slab.Summable start count →
      Slab.volume count ≤ src.size →
      (answer (.write file name start count stride src) s).1 = .ok ⟨0, #[]⟩) ∧
    (∀ src t, answer (.write file name start count stride src) s = (.ok ⟨0, #[]⟩, t) →
      (∀ dest, Slab.volume count ≤ dest.size →
        (answer (.read file' name' start count stride dest) t).1 =
          .ok ⟨0, src.take (Slab.volume count) ++ dest.drop (Slab.volume count)⟩) ∧
      (∀ start' count' stride' dest before,
        (answer (.read file' name' start' count' stride' dest) s).1 = .ok ⟨0, before⟩ →
        ∃ after, (answer (.read file' name' start' count' stride' dest) t).1 = .ok ⟨0, after⟩ ∧
          Overlaid start count src start' count' before after) ∧
      (∀ src', Slab.volume count ≤ src'.size →
        ∃ u u', answer (.write file' name' start count stride src') t = (.ok ⟨0, #[]⟩, u) ∧
          answer (.write file' name' start count stride src') s = (.ok ⟨0, #[]⟩, u') ∧
          ∀ qs, device.conversation u qs = device.conversation u' qs) ∧
      t.catalog = s.catalog ∧ t.handles = s.handles ∧ t.nextHandle = s.nextHandle ∧
      ∀ source' path', ¬ (source = source' ∧ path = path') →
        t.contents.get? source' path' = s.contents.get? source' path') ∧
    (∀ dest b r, answer (.read file name start count stride dest) s = (.ok ⟨0, b⟩, r) →
      ∃ w, answer (.write file' name' start count stride b) r = (.ok ⟨0, #[]⟩, w) ∧
        ∀ qs, (∀ k q, qs[k]? = some q →
            (∀ j ≤ k, (device.after r (qs.take j)).Unstored source path) →
            ¬ (device.after r (qs.take k)).Reallots source path q) →
          device.conversation w qs = device.conversation r qs) := by
  refine ⟨fun src hwithin hsum hsrc => ?_, fun src t hwrite => ?_, fun dest b r hread => ?_⟩
  · obtain ⟨cells, hcells⟩ := hwithin.exists_listed_of_addressable hsum hshape
    rw [← Slab.length_of_listed hcells] at hsrc
    rw [answer_write_of_cells hfile hshape hcells hsrc]
  · obtain ⟨cells, hcells, hsrc⟩ := exists_cells_of_write hfile (congrArg Prod.fst hwrite)
    rw [answer_write_of_cells hfile hshape hcells hsrc] at hwrite
    cases hwrite
    have hnodup := Slab.nodup_indices hcells
    have hlt : ∀ i ∈ cells, i < (s.initial source path info).size := fun i =>
      lt_size_initial hstored hcells
    rw [← Slab.length_of_listed hcells]
    refine ⟨fun dest hdest => ?_, fun start' count' stride' dest before hbefore => ?_,
      fun src' hsrc' => ?_, rfl, rfl, rfl, fun source' path' helse => ?_⟩
    · rw [answer_read_withContents hfile' hcells hdest, map_element_scatter hnodup hlt hsrc]
    · obtain ⟨cells', hcells', hdest, rfl⟩ := exists_cells_of_read hfile' hbefore
      refine ⟨_, answer_read_withContents hfile' hcells' hdest _ _, ?_⟩
      rw [element_initial s source path info]
      exact overlaid_scatter hstored hcells hsrc hcells' _
    · have hfile₂ : ((s.record (.write name start count)).withContents source path
          (scatter (s.initial source path info) cells src)).dataset? file' name' =
            some (source, path, info) := hfile'
      refine ⟨_, _, answer_write_of_cells hfile₂ hshape hcells hsrc',
        answer_write_of_cells hfile' hshape hcells hsrc', fun qs => ?_⟩
      rw [initial_withContents, scatter_scatter hnodup hlt hsrc hsrc']
      exact (alike_withContents_withContents s source path _ _ _ _).conversation nofun
    · simp only [withContents, record, BySource.get?_insert, if_neg helse]
  · obtain ⟨cells, hcells, hdest, rfl⟩ := exists_cells_of_read hfile (congrArg Prod.fst hread)
    rw [answer_of_read (read_of_cells hfile hcells hdest)] at hread
    cases hread
    have hfile₂ : (s.record (.read name start count)).dataset? file' name' =
        some (source, path, info) := hfile'
    refine ⟨_, answer_write_of_cells hfile₂ hshape hcells (by simp), fun qs hqs => ?_⟩
    have hback : scatter ((s.record (.read name start count)).initial source path info) cells
        ((cells.map (element (s.contents.get? source path))).toArray ++ dest.drop cells.length) =
          (s.record (.read name start count)).initial source path info :=
      scatter_readBack hstored hcells _
    rw [hback]
    refine (alike_withContents_initial (dataset?_ok hfile₂) hshape _).conversation ?_
    rintro k q source' path' hq ⟨rfl, rfl⟩
    exact hqs k q hq

/-- Two columns of a dataset that has no elements stored, written through the file and read
through the group. -/
theorem lastColumns_read_back :
    let catalog : Catalog := BySource.empty.insert "a.h5" "g/m" ⟨.float64, [2, 3]⟩
    let s := device.after (ofCatalog catalog) [.openFile "a.h5" "r" 0, .createGroup 1 "g"]
    let written := answer (.write 1 "g/m" [0, 1] [2, 2] 0 #[1, 2, 3, 4]) s
    written.1 = .ok ⟨0, #[]⟩ ∧
      (answer (.read 2 "m" [0, 1] [2, 2] 0 #[9, 9, 9, 9, 9]) written.2).1 =
        .ok ⟨0, #[1, 2, 3, 4, 9]⟩ := by
  intro catalog s written
  have hnone : s.contents.get? "a.h5" "g/m" = none := rfl
  have hstatus : written.1 = .ok ⟨0, #[]⟩ := by decide +kernel
  have hwritten : written = (.ok ⟨0, #[]⟩, written.2) := Prod.ext hstatus rfl
  obtain ⟨-, hlaws, -⟩ := slab_lens s "a.h5" "g/m" ⟨.float64, [2, 3]⟩
    (addressable_pair (by decide) (by decide))
    (by
      intro v hv
      rw [hnone] at hv
      cases hv)
    1 2 "g/m" "m" rfl rfl [0, 1] [2, 2] 0
  have hread := (hlaws _ _ hwritten).1 #[9, 9, 9, 9, 9] (by decide)
  exact ⟨hstatus, hread.trans rfl⟩

/-- Nothing is stored of a dataset of two cells. Once it was read and written back, it gets
three cells, and all three are written: the third element is lost, and would not have been
without the write back. -/
theorem third_element_lost_after_writeBack :
    let catalog : Catalog := BySource.empty.insert "a.h5" "m" ⟨.float64, [2]⟩
    let s := device.after (ofCatalog catalog) [.openFile "a.h5" "a" 0]
    let read := answer (.read 1 "m" [0] [2] 0 #[0, 0]) s
    let written := answer (.write 1 "m" [0] [2] 0 #[0, 0]) read.2
    let qs : List Request := [.createDataset 1 "m" [3] .float64,
      .write 1 "m" [0] [3] 0 #[3, 4, 5], .read 1 "m" [0] [3] 0 #[0, 0, 0]]
    read.1 = .ok ⟨0, #[0, 0]⟩ ∧ written.1 = .ok ⟨0, #[]⟩ ∧
      (device.conversation read.2 qs)[2]?.map Prod.snd = some (.ok ⟨0, #[3, 4, 5]⟩) ∧
      (device.conversation written.2 qs)[2]?.map Prod.snd = some (.ok ⟨0, #[3, 4, 0]⟩) := by
  intro catalog s read written qs
  decide +kernel

end Store

end SpmdArrays
