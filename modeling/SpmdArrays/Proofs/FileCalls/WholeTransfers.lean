import SpmdArrays.Proofs.FileCalls.Recognition
import SpmdArrays.Proofs.Store.WholeDatasets

/-!
Whole reads and whole writes as they are emitted, run on the reference device. The
statements of a read give back the dataset, element by element, and change nothing but
their target; those of a write put the array at the front of the dataset, and a
read after them gives the array back. Both only hold as far as the machine can announce
an extent: one that a signed word cannot hold arrives as a negative number and is refused.
-/

namespace SpmdArrays

/-- When a machine is in this state, the reference is one to the dataset: its file
variable holds a handle of a place in the source, and its name variable the name under
which the dataset is found from there. -/
structure DatasetRef.PointsTo (d : DatasetRef) (m : Machine Store) (name source path : String)
    (info : DatasetInfo) : Prop where
  file : ∃ (h : Int) (stem : String), m.env[d.file.name]? = some (.handle h) ∧
    m.device.handles[h]? = some (.location source stem) ∧ path = stem ++ name
  name : m.env[d.name.name]? = some (.str name)
  entry : m.device.catalog.get? source path = some info

theorem DatasetRef.PointsTo.dataset? {d : DatasetRef} {m : Machine Store}
    {name source path : String} {info : DatasetInfo} (hd : d.PointsTo m name source path info) :
    ∃ h : Int, m.env[d.file.name]? = some (.handle h) ∧
      m.device.dataset? h name = some (source, path, info) := by
  obtain ⟨h, stem, hfile, hhandle, rfl⟩ := hd.file
  refine ⟨h, hfile, ?_⟩
  simp only [Store.dataset?, Store.locate?, hhandle, Option.bind_eq_bind, Option.bind_some,
    hd.entry]
  rfl

namespace Exec

variable {σ α : Type} {d : Device σ} {ss : List Stmt} {m : Machine σ} {x : Service σ α}
  {post : α → Env → Prop}

theorem Performs.exists_of_ok (h : Performs d ss m x post) {a : α} {t : σ}
    (hx : x m.device = .ok a t) :
    ∃ n, body d ss m = .ok () n ∧ n.device = t ∧ post a n.env := by
  unfold Performs at h
  cases hb : body d ss m with
  | error e n => simp [hb, hx] at h
  | ok u n =>
      rw [hb, hx] at h
      exact ⟨n, rfl, h.1, h.2⟩

theorem Performs.exists_of_error (h : Performs d ss m x post) {e : Stop RunError} {t : σ}
    (hx : x m.device = .error e t) : ∃ n, body d ss m = .error e n ∧ n.device = t := by
  unfold Performs at h
  cases hb : body d ss m with
  | error e' n =>
      rw [hb, hx] at h
      obtain ⟨rfl, hdev⟩ := h
      exact ⟨n, rfl, hdev⟩
  | ok u n => simp [hb, hx] at h

end Exec

namespace Expand

open Exec Store

variable {c : FileScope} {d : DatasetRef} {st st' : Expansion} {out : List Stmt} {m : Machine Store}
  {name source path : String} {info : DatasetInfo}

theorem performs_read {target : Var} {type : ArrayType}
    (hemit : Expand.read c target d st = .ok (out, st'))
    (htype : c.resolve st.facts target d = .ok type) (hd : d.PointsTo m name source path info)
    (hfile : target.name ≠ d.file.name) (hname : target.name ≠ d.name.name)
    (hgen : ∀ v ∈ [target, d.file, d.name], ¬ GeneratedFrom st.nextTemp v.name) :
    ∃ h : Int, m.device.dataset? h name = some (source, path, info) ∧
      Performs device out m (device.readWhole (.handle h) (.str name) type) fun a env =>
        Env.Keeps st.nextTemp (m.env.insert target.name (.array a)) env := by
  obtain ⟨h, hhandle, hdataset⟩ := hd.dataset?
  obtain ⟨type', htype', rfl, -⟩ := read_eq_ok hemit
  cases htype.symm.trans htype'
  simp only [List.forall_mem_cons] at hgen
  exact ⟨h, hdataset, performs_readCode type hhandle hd.name hgen.2.1 hgen.2.2.1 hgen.1 hfile hname⟩

/-- The emitted statements of a read leave in their target the dataset with its shape and
its elements in row-major order, and on record the questions for all extents and one read.
Where the rank is not that of the dataset, or an extent cannot be announced, a
call fails. -/
theorem read_returns_dataset {target : Var} {type : ArrayType}
    (hemit : Expand.read c target d st = .ok (out, st'))
    (htype : c.resolve st.facts target d = .ok type) (hd : d.PointsTo m name source path info)
    (hshape : Addressable info.shape) (hwords : Slab.Unsigned info.shape)
    (hfile : target.name ≠ d.file.name) (hname : target.name ≠ d.name.name)
    (hgen : ∀ v ∈ [target, d.file, d.name], ¬ GeneratedFrom st.nextTemp v.name) :
    if type.rank = info.shape.length ∧ Slab.Signed info.shape then
      ∃ m', body device out m = .ok () m' ∧
        m'.env[target.name]? = some (.array ⟨type.elem, info.shape,
          ((List.range info.shape.prod).map
            (element (m.device.contents.get? source path))).toArray⟩) ∧
        m'.device = { m.device with
          calls := m.device.calls ++ (readCalls name info.shape).toArray } ∧
        ∀ x, x ≠ target.name → ¬ GeneratedFrom st.nextTemp x → m'.env[x]? = m.env[x]?
    else
      ∃ entry status m', body device out m = .error (.failed (.callFailed entry status)) m' := by
  obtain ⟨h, hdataset, hrun⟩ := performs_read hemit htype hd hfile hname hgen
  split
  · next hfits =>
      obtain ⟨m', hbody, hdev, hkeeps⟩ :=
        hrun.exists_of_ok (readWhole_ok hdataset hshape hfits.2 hfits.1)
      refine ⟨m', hbody, ?_, hdev, fun x hx hgenx => ?_⟩
      · rw [← hkeeps _ (hgen target (by simp)), Env.getElem?_insert_self]
      · rw [← hkeeps x hgenx, Env.getElem?_insert_of_ne _ (Ne.symm hx)]
  · next hnot =>
      obtain ⟨entry, status, calls, hstop⟩ := readWhole_refused hdataset hshape hwords hnot
      obtain ⟨m', hbody, -⟩ := hrun.exists_of_error hstop
      exact ⟨entry, status, m', hbody⟩

/-! ### A grid -/

def gridScope : FileScope where
  func := "main"
  locals := ({} : Locals).insert "x" ⟨.int32, 2⟩

def gridVar : Var := ⟨0, "x", ⟨2, 1⟩⟩

def gridRef : DatasetRef := ⟨⟨0, "f", ⟨1, 1⟩⟩, ⟨0, "k", ⟨1, 1⟩⟩⟩

def gridInfo : DatasetInfo := ⟨.float64, [2, 3]⟩

def gridStore (elements : Array Float) : Store where
  catalog := BySource.empty.insert "stock.h5" "year/grid" gridInfo
  contents := BySource.empty.insert "stock.h5" "year/grid" elements
  handles := ({} : Std.TreeMap Int Handle).insert 7 (.location "stock.h5" "year/")

theorem gridNames_apart :
    ∀ v ∈ [gridVar, gridRef.file, gridRef.name], ¬ GeneratedFrom 4 v.name := by
  have hhead : ∀ v ∈ [gridVar, gridRef.file, gridRef.name], v.name.toList.head? ≠ some '$' := by
    decide
  exact fun v hv => not_generatedFrom_of_head (hhead v hv) 4

def shortGrid : Machine Store :=
  ⟨Env.ofArgs ["f", "k"] [.handle 7, .str "grid"], gridStore #[1, 2, 3, 4]⟩

theorem gridRef_pointsTo_short :
    gridRef.PointsTo shortGrid "grid" "stock.h5" "year/grid" gridInfo where
  file := ⟨7, "year/", rfl, rfl, rfl⟩
  name := rfl
  entry := rfl

theorem shortGrid_returned :
    gridRef.PointsTo shortGrid "grid" "stock.h5" "year/grid" gridInfo ∧
      ∃ out st', Expand.read gridScope gridVar gridRef ⟨{}, 4⟩ = .ok (out, st') ∧
        ∃ m', body device out shortGrid = .ok () m' ∧
          m'.env["x"]? = some (.array ⟨.int32, [2, 3], #[1, 2, 3, 4, 0, 0]⟩) := by
  obtain ⟨out, st', hemit⟩ :
      ∃ out st', Expand.read gridScope gridVar gridRef ⟨{}, 4⟩ = .ok (out, st') := ⟨_, _, rfl⟩
  have htype : gridScope.resolve {} gridVar gridRef = .ok ⟨.int32, 2⟩ := rfl
  have hread := read_returns_dataset hemit htype gridRef_pointsTo_short
    (addressable_pair (by decide) (by decide)) (by decide) (by decide) (by decide) gridNames_apart
  rw [if_pos (by decide)] at hread
  obtain ⟨m', hbody, harray, -, -⟩ := hread
  exact ⟨gridRef_pointsTo_short, out, st', hemit, m', hbody, harray⟩

/-- A dataset without elements whose second extent a signed word cannot hold. -/
def wideInfo : DatasetInfo := ⟨.float64, [0, 9223372036854775808]⟩

def wideStore : Store where
  catalog := BySource.empty.insert "stock.h5" "wide" wideInfo
  handles := ({} : Std.TreeMap Int Handle).insert 7 (.location "stock.h5" "")

def wideGrid : Machine Store := ⟨Env.ofArgs ["f", "k"] [.handle 7, .str "wide"], wideStore⟩

theorem gridRef_pointsTo_wide : gridRef.PointsTo wideGrid "wide" "stock.h5" "wide" wideInfo where
  file := ⟨7, "", rfl, rfl, rfl⟩
  name := rfl
  entry := rfl

/-- The grid with all of its elements in a file under the given variable, and an array that is
smaller. -/
def fullGrid (file : String) : Machine Store :=
  ⟨Env.ofArgs [file, "k", "x"] [.handle 7, .str "grid", .array ⟨.int32, [1, 2], #[8, 9]⟩],
    gridStore #[1, 2, 3, 4, 5, 6]⟩

def refFrom (file : String) : DatasetRef := ⟨⟨0, file, ⟨1, 1⟩⟩, gridRef.name⟩

theorem refFrom_temp_pointsTo :
    (refFrom "$size.5").PointsTo (fullGrid "$size.5") "grid" "stock.h5" "year/grid" gridInfo where
  file := ⟨7, "year/", rfl, rfl, rfl⟩
  name := rfl
  entry := rfl

/-- An extent that is announced as a negative number fails the call that asks for it,
and a file variable that a temporary replaces is no handle any more. -/
theorem wideGrid_read_fails :
    (Addressable wideInfo.shape ∧ gridRef.PointsTo wideGrid "wide" "stock.h5" "wide" wideInfo ∧
      ∃ out st', Expand.read gridScope gridVar gridRef ⟨{}, 4⟩ = .ok (out, st') ∧
        ∃ m', body device out wideGrid =
          .error (.failed (.callFailed "size" (-9223372036854775808))) m') ∧
    (Addressable gridInfo.shape ∧
      (refFrom "$size.5").PointsTo (fullGrid "$size.5") "grid" "stock.h5" "year/grid" gridInfo ∧
      ∃ out st', Expand.read gridScope gridVar (refFrom "$size.5") ⟨{}, 4⟩ = .ok (out, st') ∧
        ∃ m', body device out (fullGrid "$size.5") =
          .error (.failed (.typeError (.notHandle (.entry .size)))) m') :=
  ⟨⟨addressable_pair (by decide) (by decide), gridRef_pointsTo_wide, _, _, rfl, _, rfl⟩,
    addressable_pair (by decide) (by decide), refFrom_temp_pointsTo, _, _, rfl, _, rfl⟩

/-! ### Writing -/

theorem write_eq_ok {target source : Var} {rank : Nat}
    (hemit : Expand.write c target d source st = .ok (out, st'))
    (hrank : writeRank c target d source st = .ok (rank, st)) :
    out = transferCode c .write d rank (.attr source "shape") source target.loc st.nextTemp := by
  unfold Expand.write at hemit
  obtain ⟨r, s₁, hr, h₁⟩ := bind_eq_ok hemit
  cases hrank.symm.trans hr
  obtain ⟨u, s₂, hroom, h₂⟩ := bind_eq_ok h₁
  cases reserveVars_eq_ok hroom
  rw [transfer_eq] at h₂
  cases h₂
  rfl

/-- The state after an array was written to the front of a dataset. -/
structure Wrote (m m' : Machine Store) (name source path : String) (info : DatasetInfo)
    (a : ArrayValue) : Prop where
  elements : ∃ after, m'.device.contents.get? source path = some after ∧
    PutAtFront info.shape (m.device.initial source path info) a after
  others : ∀ source' path', (source', path') ≠ (source, path) →
    m'.device.contents.get? source' path' = m.device.contents.get? source' path'
  catalog : m'.device.catalog = m.device.catalog
  handles : m'.device.handles = m.device.handles
  calls : m'.device.calls = m.device.calls.push
    (.write name (List.replicate a.shape.length 0) (a.shape.map Int.ofNat))

section

variable {target src : Var} {rank : Nat} {a : ArrayValue}

theorem performs_write (hemit : Expand.write c target d src st = .ok (out, st'))
    (hrank : writeRank c target d src st = .ok (rank, st)) (hd : d.PointsTo m name source path info)
    (hsrc : m.env[src.name]? = some (.array a))
    (hgen : ∀ v ∈ [src, d.file, d.name], ¬ GeneratedFrom st.nextTemp v.name) :
    ∃ h : Int, m.device.dataset? h name = some (source, path, info) ∧
      Performs device out m (device.writeWhole (.handle h) (.str name) rank (.array a)) fun _ env =>
        Env.Keeps st.nextTemp m.env env := by
  obtain ⟨h, hhandle, hdataset⟩ := hd.dataset?
  rw [write_eq_ok hemit hrank]
  simp only [List.forall_mem_cons] at hgen
  exact ⟨h, hdataset, performs_writeCode target.loc hhandle hd.name hsrc hgen.2.1 hgen.2.2.1 hgen.1⟩

theorem exists_wrote (hemit : Expand.write c target d src st = .ok (out, st'))
    (hrank : writeRank c target d src st = .ok (rank, st)) (hd : d.PointsTo m name source path info)
    (hshape : Addressable info.shape)
    (hstored : ∀ v, m.device.contents.get? source path = some v → v.size = info.shape.prod)
    (hsrc : m.env[src.name]? = some (.array a)) (hdata : a.data.size = a.shape.prod)
    (hgen : ∀ v ∈ [src, d.file, d.name], ¬ GeneratedFrom st.nextTemp v.name)
    (hlen : rank = a.shape.length) (hin : InShape a.shape info.shape)
    (hsigned : Slab.Signed a.shape) :
    ∃ m', body device out m = .ok () m' ∧ Wrote m m' name source path info a ∧
      Env.Keeps st.nextTemp m.env m'.env := by
  obtain ⟨h, hdataset, hrun⟩ := performs_write hemit hrank hd hsrc hgen
  have hwhole := writeWhole_eq hdataset hshape hsigned.unsigned hdata rank
  simp only [if_pos hlen.symm, if_pos (And.intro hin hsigned : Takes info.shape a.shape)] at hwhole
  obtain ⟨m', hbody, hdev, hkeeps⟩ := hrun.exists_of_ok hwhole
  refine ⟨m', hbody,
    ⟨⟨_, ?_, putAtFront_scatter hin hdata (size_initial hstored)⟩, ?_, ?_, ?_, ?_⟩, hkeeps⟩
  · rw [hdev, withContents, BySource.get?_insert, if_pos ⟨rfl, rfl⟩]
  · intro source' path' hne
    rw [hdev, withContents, BySource.get?_insert, if_neg]
    · rfl
    · rintro ⟨rfl, rfl⟩
      exact hne rfl
  · rw [hdev]
    rfl
  · rw [hdev]
    rfl
  · rw [hdev, hlen, Slab.map_announced hsigned]
    rfl

theorem exists_refused (hemit : Expand.write c target d src st = .ok (out, st'))
    (hrank : writeRank c target d src st = .ok (rank, st)) (hd : d.PointsTo m name source path info)
    (hshape : Addressable info.shape) (hsrc : m.env[src.name]? = some (.array a))
    (hdata : a.data.size = a.shape.prod) (hwords : Slab.Unsigned a.shape)
    (hgen : ∀ v ∈ [src, d.file, d.name], ¬ GeneratedFrom st.nextTemp v.name)
    (hnot : ¬ (rank = a.shape.length ∧ InShape a.shape info.shape ∧ Slab.Signed a.shape)) :
    ∃ e m', body device out m = .error e m' ∧ m'.device.catalog = m.device.catalog ∧
      m'.device.contents = m.device.contents := by
  obtain ⟨h, hdataset, hrun⟩ := performs_write hemit hrank hd hsrc hgen
  have hwhole := writeWhole_eq hdataset hshape hwords hdata rank
  by_cases hlen : a.shape.length = rank
  · have htakes : ¬ Takes info.shape a.shape := fun h => hnot ⟨hlen.symm, h⟩
    simp only [if_pos hlen, if_neg htakes] at hwhole
    obtain ⟨m', hbody, hdev⟩ := hrun.exists_of_error hwhole
    refine ⟨_, m', hbody, ?_, ?_⟩ <;> rw [hdev] <;> rfl
  · simp only [if_neg hlen] at hwhole
    obtain ⟨m', hbody, hdev⟩ := hrun.exists_of_error hwhole
    exact ⟨_, m', hbody, by rw [hdev], by rw [hdev]⟩

end

/-- Every whole read that can be emitted for the reference gives the array back. -/
def ReadsBack (m : Machine Store) (d : DatasetRef) (a : ArrayValue) : Prop :=
  ∀ {c : FileScope} {target : Var} {st st' : Expansion} {out : List Stmt} {type : ArrayType},
    Expand.read c target d st = .ok (out, st') → c.resolve st.facts target d = .ok type →
    type.rank = a.shape.length → target.name ≠ d.file.name → target.name ≠ d.name.name →
    (∀ v ∈ [target, d.file, d.name], ¬ GeneratedFrom st.nextTemp v.name) →
    ∃ m', body device out m = .ok () m' ∧
      m'.env[target.name]? = some (.array ⟨type.elem, a.shape, a.data⟩)

theorem Wrote.readsBack {m m' : Machine Store} {a : ArrayValue} {n : Nat}
    (hw : Wrote m m' name source path info a) (hkeeps : Env.Keeps n m.env m'.env)
    (hd : d.PointsTo m name source path info) (hshape : Addressable info.shape)
    (hstored : ∀ v, m.device.contents.get? source path = some v → v.size = info.shape.prod)
    (hdata : a.data.size = a.shape.prod) (hsigned : Slab.Signed a.shape)
    (gfile : ¬ GeneratedFrom n d.file.name) (gname : ¬ GeneratedFrom n d.name.name)
    (hall : a.shape = info.shape) : ReadsBack m' d a := by
  intro c target st st' out type hemit htype hrank hnefile hnename hgen
  have hd' : d.PointsTo m' name source path info := by
    obtain ⟨h, stem, hfile, hhandle, hpath⟩ := hd.file
    refine ⟨⟨h, stem, (hkeeps _ gfile).symm.trans hfile, ?_, hpath⟩,
      (hkeeps _ gname).symm.trans hd.name, ?_⟩
    · rw [hw.handles, hhandle]
    · rw [hw.catalog, hd.entry]
  obtain ⟨after, hcontents, hput⟩ := hw.elements
  rw [hput.eq_data hall hdata (size_initial hstored)] at hcontents
  obtain ⟨h, hdataset, hrun⟩ := performs_read hemit htype hd' hnefile hnename hgen
  have hwhole := readWhole_ok hdataset hshape (hall ▸ hsigned) (hrank.trans (by rw [hall]))
  rw [hcontents, ← hall, ← hdata, map_element_some] at hwhole
  obtain ⟨m'', hbody, -, hkeeps'⟩ := hrun.exists_of_ok hwhole
  refine ⟨m'', hbody, ?_⟩
  rw [← hkeeps' _ (hgen target (by simp)), Env.getElem?_insert_self]

/-- The emitted statements of a write succeed when the ranks are equal and no extent of the
array is greater than that of the dataset or cannot be announced. They put the
array at the front of the dataset and leave everything else, and a whole read
afterwards gives back an array as large as the dataset. If they fail, catalog and
contents are as they were. -/
theorem write_stores_array {target src : Var} {rank : Nat} {a : ArrayValue}
    (hemit : Expand.write c target d src st = .ok (out, st'))
    (hrank : writeRank c target d src st = .ok (rank, st)) (hd : d.PointsTo m name source path info)
    (hshape : Addressable info.shape)
    (hstored : ∀ v, m.device.contents.get? source path = some v → v.size = info.shape.prod)
    (hsrc : m.env[src.name]? = some (.array a)) (hdata : a.data.size = a.shape.prod)
    (hwords : Slab.Unsigned a.shape)
    (hgen : ∀ v ∈ [src, d.file, d.name], ¬ GeneratedFrom st.nextTemp v.name) :
    ((∃ m', body device out m = .ok () m') ↔
        rank = a.shape.length ∧ InShape a.shape info.shape ∧ Slab.Signed a.shape) ∧
      (∀ m', body device out m = .ok () m' → Wrote m m' name source path info a ∧
        (a.shape = info.shape → ReadsBack m' d a)) ∧
      (∀ e m', body device out m = .error e m' →
        m'.device.catalog = m.device.catalog ∧ m'.device.contents = m.device.contents) := by
  by_cases hfits : rank = a.shape.length ∧ InShape a.shape info.shape ∧ Slab.Signed a.shape
  · obtain ⟨m₁, hbody, hwrote, hkeeps⟩ := exists_wrote hemit hrank hd hshape hstored hsrc hdata hgen
      hfits.1 hfits.2.1 hfits.2.2
    rw [hbody]
    refine ⟨⟨fun _ => hfits, fun _ => ⟨m₁, rfl⟩⟩, ?_, fun e m' h => nomatch h⟩
    rintro m' ⟨⟩
    exact ⟨hwrote, hwrote.readsBack hkeeps hd hshape hstored hdata hfits.2.2
      (hgen d.file (by simp)) (hgen d.name (by simp))⟩
  · obtain ⟨e₁, m₁, hbody, hcatalog, hcontents⟩ :=
      exists_refused hemit hrank hd hshape hsrc hdata hwords hgen hfits
    rw [hbody]
    refine ⟨⟨fun ⟨m', h⟩ => (nomatch h), fun h => absurd h hfits⟩, fun m' h => (nomatch h), ?_⟩
    rintro e m' ⟨⟩
    exact ⟨hcatalog, hcontents⟩

theorem gridRef_pointsTo_full :
    gridRef.PointsTo (fullGrid "f") "grid" "stock.h5" "year/grid" gridInfo where
  file := ⟨7, "year/", rfl, rfl, rfl⟩
  name := rfl
  entry := rfl

theorem fullGrid_stored :
    gridRef.PointsTo (fullGrid "f") "grid" "stock.h5" "year/grid" gridInfo ∧
      ∃ out st', Expand.write gridScope gridVar gridRef gridVar ⟨{}, 4⟩ = .ok (out, st') ∧
        ∃ m', body device out (fullGrid "f") = .ok () m' ∧
          Wrote (fullGrid "f") m' "grid" "stock.h5" "year/grid" gridInfo
            ⟨.int32, [1, 2], #[8, 9]⟩ := by
  obtain ⟨out, st', hemit⟩ :
      ∃ out st', Expand.write gridScope gridVar gridRef gridVar ⟨{}, 4⟩ = .ok (out, st') :=
    ⟨_, _, rfl⟩
  have hrank : writeRank gridScope gridVar gridRef gridVar ⟨{}, 4⟩ = .ok (2, ⟨{}, 4⟩) := rfl
  have hstored : ∀ v, (fullGrid "f").device.contents.get? "stock.h5" "year/grid" = some v →
      v.size = gridInfo.shape.prod := by
    rintro v ⟨⟩
    rfl
  obtain ⟨hiff, hwrote, -⟩ := write_stores_array hemit hrank gridRef_pointsTo_full
    (addressable_pair (by decide) (by decide)) hstored rfl rfl (by decide) gridNames_apart
  obtain ⟨m', hbody⟩ := hiff.mpr ⟨rfl, by decide, by decide⟩
  exact ⟨gridRef_pointsTo_full, out, st', hemit, m', hbody, (hwrote m' hbody).1⟩

def wideSource : ArrayValue := ⟨.float64, wideInfo.shape, #[]⟩

def wideWrite : Machine Store :=
  ⟨Env.ofArgs ["f", "k", "x"] [.handle 7, .str "wide", .array wideSource], wideStore⟩

theorem gridRef_pointsTo_wideWrite :
    gridRef.PointsTo wideWrite "wide" "stock.h5" "wide" wideInfo where
  file := ⟨7, "", rfl, rfl, rfl⟩
  name := rfl
  entry := rfl

theorem refFrom_ndims_pointsTo :
    (refFrom "$h5_ndims.4").PointsTo (fullGrid "$h5_ndims.4") "grid" "stock.h5" "year/grid"
      gridInfo where
  file := ⟨7, "year/", rfl, rfl, rfl⟩
  name := rfl
  entry := rfl

/-- A count that is announced as a negative number is refused, though the array has
the shape of the dataset, and a file variable that a temporary replaces is no handle
any more. -/
theorem wideWrite_refused :
    (Addressable wideInfo.shape ∧ gridRef.PointsTo wideWrite "wide" "stock.h5" "wide" wideInfo ∧
      wideSource.shape = wideInfo.shape ∧ wideSource.data.size = wideSource.shape.prod ∧
      ∃ out st', Expand.write gridScope gridVar gridRef gridVar ⟨{}, 4⟩ = .ok (out, st') ∧
        ∃ m', body device out wideWrite = .error (.failed (.callFailed "write" (-1))) m') ∧
    (Addressable gridInfo.shape ∧ InShape [1, 2] gridInfo.shape ∧
      (refFrom "$h5_ndims.4").PointsTo (fullGrid "$h5_ndims.4") "grid" "stock.h5" "year/grid"
        gridInfo ∧
      ∃ out st', Expand.write gridScope gridVar (refFrom "$h5_ndims.4") gridVar ⟨{}, 4⟩ =
          .ok (out, st') ∧
        ∃ m', body device out (fullGrid "$h5_ndims.4") =
          .error (.failed (.typeError (.notHandle (.int 2)))) m') :=
  ⟨⟨addressable_pair (by decide) (by decide), gridRef_pointsTo_wideWrite, rfl, rfl, _, _, rfl, _,
      rfl⟩,
    addressable_pair (by decide) (by decide), by decide, refFrom_ndims_pointsTo, _, _, rfl, _, rfl⟩

end Expand

end SpmdArrays
