import SpmdArrays.Proofs.Exec.Statuses
import SpmdArrays.Proofs.Store.Answers
import SpmdArrays.Proofs.Store.Transfers

/-!
The elements that the reference device stores, next to the catalog that describes
them. The two are kept apart and change at different times: a dataset gets elements
with its first write, and loses them when its source is emptied. Elements are never
stored for a dataset that the catalog does not know. Their number is that of the
cells of the dataset for as long as no dataset with stored elements is described
anew with another number of cells. Such a description is taken, and the elements
stay as they were; a later write then loses what goes to a cell behind them.
-/

namespace SpmdArrays

namespace Store

/-- A store that had the given catalog to begin with, after these requests. -/
def served (catalog : Catalog) (qs : List Request) : Store :=
  device.after (ofCatalog catalog) qs

/-- Elements are stored only for datasets of the catalog. -/
def Catalogued (s : Store) : Prop :=
  ∀ source path v, s.contents.get? source path = some v →
    ∃ info, s.catalog.get? source path = some info

/-- Elements are stored only for datasets of the catalog, one for each cell. -/
def Fitting (s : Store) : Prop :=
  ∀ source path v, s.contents.get? source path = some v →
    ∃ info, s.catalog.get? source path = some info ∧ v.size = info.shape.prod

/-- The request describes a dataset that has elements stored, and gives it another
number of cells. -/
def Resizes (s : Store) : Request → Prop
  | .createDataset file name shape _ =>
    ∃ source path v, s.locate? file name = some (source, path) ∧ (∀ n ∈ shape, 0 ≤ n) ∧
      s.contents.get? source path = some v ∧ v.size ≠ (shape.map Int.toNat).prod
  | _ => False

variable {s t : Store} {q : Request} {r : Except Fault Reply}

/-! ### One request -/

theorem size_of_zeros {info : DatasetInfo} {v : Array Float} (h : zeros info = .ok v) :
    v.size = info.shape.prod := by
  obtain ⟨n, hn, h₁⟩ := exists_of_bind_ok h
  obtain ⟨-, -, h₂⟩ := exists_of_bind_ok h₁
  cases h₂
  rw [Array.size_replicate, Word.product_ok hn, Int.toNat_natCast]

theorem Answered.origin (h : s.Answered q r t) {source path : String} {v : Array Float}
    (hv : t.contents.get? source path = some v) :
    (∃ info, t.catalog.get? source path = some info ∧ v.size = info.shape.prod) ∨
    (∃ u, s.contents.get? source path = some u ∧ u.size = v.size ∧
      t.catalog.get? source path = s.catalog.get? source path) ∨
    (∃ file name shape elem, q = .createDataset file name shape elem ∧
      s.locate? file name = some (source, path) ∧ (∀ n ∈ shape, 0 ≤ n) ∧
      s.contents.get? source path = some v ∧
      t.catalog.get? source path = some ⟨elem, shape.map Int.toNat⟩) := by
  cases h with
  | faulted | refused | closed | sized | read | grouped => exact .inr (.inl ⟨v, hv, rfl, rfl⟩)
  | @emptied name =>
      have hnow := (BySource.get?_eraseSource s.contents name source path).symm.trans hv
      split at hnow
      · cases hnow
      · next hne =>
          refine .inr (.inl ⟨v, hnow, rfl, ?_⟩)
          exact (BySource.get?_clearSource ..).trans (if_neg hne)
  | opened => exact .inr (.inl ⟨v, hv, rfl, BySource.get?_addSource ..⟩)
  | @written _ _ place stem _ _ _ _ src stored cells hd _ _ hstored =>
      have hnow := (BySource.get?_insert s.contents place stem (scatter stored cells src)
        source path).symm.trans hv
      split at hnow
      · next hplace =>
          obtain ⟨rfl, rfl⟩ := hplace
          cases Option.some.inj hnow
          rcases hstored with hstored | ⟨-, hzeros⟩
          · exact .inr (.inl ⟨_, hstored, size_scatter.symm, rfl⟩)
          · exact .inl ⟨_, dataset?_ok hd, size_scatter.trans (size_of_zeros hzeros)⟩
      · exact .inr (.inl ⟨v, hnow, rfl, rfl⟩)
  | @described file name place stem shape elem hpath hshape =>
      by_cases hplace : place = source ∧ stem = path
      · obtain ⟨rfl, rfl⟩ := hplace
        refine .inr (.inr ⟨file, name, shape, elem, rfl, hpath, hshape, hv, ?_⟩)
        exact (BySource.get?_insert ..).trans (if_pos ⟨rfl, rfl⟩)
      · refine .inr (.inl ⟨v, hv, rfl, ?_⟩)
        exact (BySource.get?_insert ..).trans (if_neg hplace)

theorem Answered.catalogued (h : s.Answered q r t) (hs : s.Catalogued) : t.Catalogued := by
  intro source path v hv
  rcases h.origin hv with ⟨info, hinfo, -⟩ | ⟨u, hu, -, hsame⟩ | ⟨_, _, _, _, -, -, -, -, hinfo⟩
  · exact ⟨info, hinfo⟩
  · rw [hsame]
    exact hs source path u hu
  · exact ⟨_, hinfo⟩

theorem Answered.fitting (h : s.Answered q r t) (hs : s.Fitting) (hq : ¬ s.Resizes q) :
    t.Fitting := by
  intro source path v hv
  rcases h.origin hv with
    hfit | ⟨u, hu, hsize, hsame⟩ | ⟨file, name, shape, elem, rfl, hpath, hshape, hold, hinfo⟩
  · exact hfit
  · rw [hsame, ← hsize]
    exact hs source path u hu
  · refine ⟨_, hinfo, ?_⟩
    exact Decidable.not_not.mp fun hne => hq ⟨source, path, v, hpath, hshape, hold, hne⟩

/-- A dataset that is described anew is in the catalog as described, and has its old elements. -/
theorem Answered.not_fitting (h : s.Answered q r t) (hq : s.Resizes q) : ¬ t.Fitting := by
  intro ht
  cases q with
  | createDataset file name shape elem =>
      obtain ⟨source, path, v, hplace, hshape, hold, hne⟩ := hq
      cases h with
      | faulted _ htransfer => simp [Request.entry] at htransfer
      | refused _ hdescribe =>
          rcases hdescribe _ _ _ _ rfl with hnone | ⟨n, hn, hneg⟩
          · cases hnone.symm.trans hplace
          · exact absurd (hshape n hn) (Int.not_le.mpr hneg)
      | described _ hpath _ =>
          cases hpath.symm.trans hplace
          obtain ⟨info, hinfo, hsize⟩ := ht source path v hold
          have hnew := (BySource.get?_insert s.catalog source path
            ⟨elem, shape.map Int.toNat⟩ source path).trans (if_pos ⟨rfl, rfl⟩)
          cases hnew.symm.trans hinfo
          exact hne hsize
  | _ => exact hq

/-! ### Any number of requests -/

theorem served_concat (catalog : Catalog) (qs : List Request) (q : Request) :
    served catalog (qs ++ [q]) = (answer q (served catalog qs)).2 :=
  device.after_concat (ofCatalog catalog) qs q

theorem served_take_succ (catalog : Catalog) {qs : List Request} {k : Nat} {q : Request}
    (h : qs[k]? = some q) :
    served catalog (qs.take (k + 1)) = (answer q (served catalog (qs.take k))).2 := by
  rw [List.take_add_one, h]
  exact served_concat catalog (qs.take k) q

theorem fitting_ofCatalog (catalog : Catalog) : (ofCatalog catalog).Fitting := by
  intro source path v hv
  simp [ofCatalog, BySource.empty, BySource.get?] at hv

theorem Fitting.catalogued (hs : s.Fitting) : s.Catalogued := by
  intro source path v hv
  obtain ⟨info, hinfo, -⟩ := hs source path v hv
  exact ⟨info, hinfo⟩

theorem Catalogued.after (hs : s.Catalogued) (qs : List Request) :
    (device.after s qs).Catalogued := by
  induction qs generalizing s with
  | nil => exact hs
  | cons q qs ih => exact ih ((answered q s).catalogued hs)

/-- Up to the first request that resizes a dataset, the elements fit. -/
theorem fitting_served {catalog : Catalog} {qs : List Request}
    (h : ∀ k q, qs[k]? = some q → ¬ (served catalog (qs.take k)).Resizes q) (k : Nat) :
    (served catalog (qs.take k)).Fitting := by
  induction k with
  | zero => exact fitting_ofCatalog catalog
  | succ k ih =>
      cases hq : qs[k]? with
      | none =>
          rw [List.take_add_one, hq]
          simpa using ih
      | some q =>
          rw [served_take_succ catalog hq]
          exact (answered q _).fitting ih (h k q hq)

/-! ### Writes -/

theorem Fitting.write (hs : s.Fitting) {file : Int} {name : String} {start count : List Int}
    {stride : Int} {src : Array Float} {reply : Reply}
    (h : (answer (.write file name start count stride src) s).1 = .ok reply)
    (hstatus : 0 ≤ reply.status) :
    ∃ source path info cells v, s.dataset? file name = some (source, path, info) ∧
      Slab.indices info.shape start count stride = .ok (some cells) ∧ cells.length ≤ src.size ∧
      (answer (.write file name start count stride src) s).2.contents.get? source path = some v ∧
      v.size = info.shape.prod ∧ ∀ k i : Nat, cells[k]? = some i → v[i]? = src[k]? := by
  have hanswered := answered (.write file name start count stride src) s
  generalize answer (.write file name start count stride src) s = a at h hanswered
  obtain ⟨outcome, t⟩ := a
  cases h
  cases hanswered with
  | refused => exact absurd hstatus (Int.not_le.mpr refused_neg)
  | @written _ _ source path info _ _ _ _ stored cells hd hcells hsrc hstored =>
      have hsize : stored.size = info.shape.prod := by
        rcases hstored with hstored | ⟨-, hzeros⟩
        · obtain ⟨other, hother, hsize⟩ := hs source path stored hstored
          cases (dataset?_ok hd).symm.trans hother
          exact hsize
        · exact size_of_zeros hzeros
      refine ⟨source, path, info, cells, scatter stored cells src, hd, hcells, hsrc, ?_,
        size_scatter.trans hsize, fun k i hk => ?_⟩
      · simp [BySource.get?_insert]
      · refine scatter_at hsrc (Slab.nodup_indices hcells) hk ?_
        rw [hsize]
        exact Slab.lt_of_mem_indices hcells (List.mem_of_getElem? hk)

/-- The elements of a store, after any requests. They belong to datasets of the
catalog. They fit all along exactly if no request on the way resizes a dataset that
has elements. And while they fit, a granted write puts every element of its slab
where it belongs. -/
theorem elements_fit_until_resized (catalog : Catalog) (qs : List Request) :
    (served catalog qs).Catalogued ∧
    ((∀ k, (served catalog (qs.take k)).Fitting) ↔
      ∀ k q, qs[k]? = some q → ¬ (served catalog (qs.take k)).Resizes q) ∧
    (∀ file name start count stride src reply, (served catalog qs).Fitting →
      (answer (.write file name start count stride src) (served catalog qs)).1 = .ok reply →
      0 ≤ reply.status →
        ∃ source path info cells v,
          (served catalog qs).dataset? file name = some (source, path, info) ∧
          Slab.indices info.shape start count stride = .ok (some cells) ∧
          cells.length ≤ src.size ∧
          (served catalog (qs ++ [.write file name start count stride src])).contents.get?
            source path = some v ∧
          v.size = info.shape.prod ∧ ∀ k i : Nat, cells[k]? = some i → v[i]? = src[k]?) := by
  refine ⟨(fitting_ofCatalog catalog).catalogued.after qs,
    ⟨fun h k q hq hresizes => ?_, fitting_served⟩, ?_⟩
  · refine (answered q _).not_fitting hresizes ?_
    rw [← served_take_succ catalog hq]
    exact h (k + 1)
  · intro file name start count stride src reply hfit h hstatus
    rw [served_concat]
    exact hfit.write h hstatus

/-- A dataset of two cells that has been written, and then gets three cells: the write
of all three is granted, and the third element is lost. -/
theorem third_element_lost_after_resize :
    let catalog : Catalog := BySource.empty.insert "a.h5" "m" ⟨.float64, [2]⟩
    let qs : List Request := [.openFile "a.h5" "a" 0, .write 1 "m" [0] [2] 0 #[1, 2],
      .createDataset 1 "m" [3] .float64]
    ¬ (served catalog qs).Fitting ∧
      (answer (.write 1 "m" [0] [3] 0 #[3, 4, 5]) (served catalog qs)).1 = .ok ⟨0, #[]⟩ ∧
      ((served catalog (qs ++ [.write 1 "m" [0] [3] 0 #[3, 4, 5]])).contents.get? "a.h5" "m").map
        Array.size = some 2 := by
  intro catalog qs
  have hsize : ((served catalog qs).contents.get? "a.h5" "m").map Array.size = some 2 := by
    decide +kernel
  have hinfo : (served catalog qs).catalog.get? "a.h5" "m" = some ⟨.float64, [3]⟩ := by
    decide +kernel
  refine ⟨fun hfit => ?_, by decide +kernel, by decide +kernel⟩
  obtain ⟨v, hv, hv2⟩ := Option.map_eq_some_iff.mp hsize
  obtain ⟨info, hother, hfits⟩ := hfit "a.h5" "m" v hv
  cases hinfo.symm.trans hother
  rw [hv2] at hfits
  exact absurd hfits (by decide)

end Store

end SpmdArrays
