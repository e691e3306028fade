import SpmdArrays.Proofs.Store.Handles

/-!
All that an answer of the reference device can be. A request is refused, or stopped by a
fault, and then only the record of the call remains. Or it is granted, and then `Answered`
says under which condition, with which status and what becomes of the store. Every refusal
comes before the first change, so a negative status means that nothing was changed; an
extent that is announced as a negative number is no exception, since asking for an extent
changes nothing anyway.
-/

namespace SpmdArrays

def Request.buffer : Request → Array Float
  | .read _ _ _ _ _ dest => dest
  | _ => #[]

namespace Store

/-- An answer, with the store that it leaves. -/
inductive Answered (s : Store) : Request → Except Fault Reply → Store → Prop
  | faulted {q : Request} (fault : Fault) (htransfer : q.entry = .read ∨ q.entry = .write) :
      Answered s q (.error fault) (s.record (.ofRequest q))
  /-- What can be closed is closed, and what can be described is described; anything else may be
  refused. -/
  | refused {q : Request} (hclose : ∀ file, q = .closeFile file → ¬ s.handles.contains file)
      (hdescribe : ∀ file name shape elem, q = .createDataset file name shape elem →
        s.locate? file name = none ∨ ∃ n ∈ shape, n < 0) :
      Answered s q (.ok ⟨refused, q.buffer⟩) (s.record (.ofRequest q))
  | emptied {name mode : String} (parallel : Int) (hmode : OpenMode.ofText? mode = some .truncate) :
      Answered s (.openFile name mode parallel) (.ok ⟨s.upcoming, #[]⟩)
        ({ s.record (.openFile name mode parallel) with
            catalog := s.catalog.clearSource name
            contents := s.contents.eraseSource name }.grant (.location name "")).2
  | opened {name mode : String} (parallel : Int) {m : OpenMode}
      (hmode : OpenMode.ofText? mode = some m) (hkept : m ≠ .truncate)
      (hadmits : m.admits (s.catalog.hasSource name)) :
      Answered s (.openFile name mode parallel) (.ok ⟨s.upcoming, #[]⟩)
        ({ s.record (.openFile name mode parallel) with
            catalog := s.catalog.addSource name }.grant (.location name "")).2
  | closed {file : Int} (hfile : s.handles.contains file) :
      Answered s (.closeFile file) (.ok ⟨0, #[]⟩)
        { s.record (.closeFile file) with handles := s.handles.erase file }
  | sized {file : Int} {name source path : String} {info : DatasetInfo} {dim : Int} {extent : Nat}
      (hd : s.dataset? file name = some (source, path, info)) (hdim : 0 ≤ dim)
      (hextent : info.shape[dim.toNat]? = some extent) :
      Answered s (.size file name dim) (.ok ⟨Word.wrapSigned 64 extent, #[]⟩)
        (s.record (.size name dim))
  | read {file : Int} {name source path : String} {info : DatasetInfo} {start count : List Int}
      {stride : Int} {dest : Array Float} {cells : List Nat}
      (hd : s.dataset? file name = some (source, path, info))
      (hcells : Slab.indices info.shape start count stride = .ok (some cells))
      (hdest : cells.length ≤ dest.size) :
      Answered s (.read file name start count stride dest)
        (.ok ⟨0, (cells.map (element (s.contents.get? source path))).toArray ++
          dest.drop cells.length⟩)
        (s.record (.read name start count))
  | written {file : Int} {name source path : String} {info : DatasetInfo} {start count : List Int}
      {stride : Int} {src stored : Array Float} {cells : List Nat}
      (hd : s.dataset? file name = some (source, path, info))
      (hcells : Slab.indices info.shape start count stride = .ok (some cells))
      (hsrc : cells.length ≤ src.size)
      (hstored : s.contents.get? source path = some stored ∨
        s.contents.get? source path = none ∧ zeros info = .ok stored) :
      Answered s (.write file name start count stride src) (.ok ⟨0, #[]⟩)
        ((s.record (.write name start count)).withContents source path (scatter stored cells src))
  | described {file : Int} {name source path : String} {shape : List Int} (elem : ElementType)
      (hpath : s.locate? file name = some (source, path)) (hshape : ∀ n ∈ shape, 0 ≤ n) :
      Answered s (.createDataset file name shape elem) (.ok ⟨s.upcoming, #[]⟩)
        ({ s.record (.createDataset name shape elem) with
            catalog := s.catalog.insert source path ⟨elem, shape.map Int.toNat⟩ }.grant .dataset).2
  | grouped {file : Int} {name source path : String}
      (hpath : s.locate? file name = some (source, path)) :
      Answered s (.createGroup file name) (.ok ⟨s.upcoming, #[]⟩)
        ((s.record (.createGroup name)).grant (.location source (path ++ "/"))).2

variable {s : Store}

/-! ### One entry point after another -/

theorem openFile_cases (s : Store) (name mode : String) :
    s.openFile name mode = (refused, s) ∨
    (OpenMode.ofText? mode = some .truncate ∧
      s.openFile name mode =
        { s with
          catalog := s.catalog.clearSource name
          contents := s.contents.eraseSource name }.grant (.location name "")) ∨
    ∃ m, OpenMode.ofText? mode = some m ∧ m ≠ .truncate ∧ m.admits (s.catalog.hasSource name) ∧
      s.openFile name mode =
        { s with catalog := s.catalog.addSource name }.grant (.location name "") := by
  unfold openFile
  cases hmode : OpenMode.ofText? mode with
  | none => exact .inl rfl
  | some m =>
      simp only
      by_cases hadmits : m.admits (s.catalog.hasSource name)
      · rw [if_pos hadmits]
        by_cases htruncate : m = .truncate
        · rw [if_pos htruncate]
          exact .inr (.inl ⟨by rw [htruncate], rfl⟩)
        · rw [if_neg htruncate]
          exact .inr (.inr ⟨m, rfl, htruncate, hadmits, rfl⟩)
      · rw [if_neg hadmits]
        exact .inl rfl

theorem answered_openFile (s : Store) (name mode : String) (parallel : Int) :
    s.Answered (.openFile name mode parallel)
      (answer (.openFile name mode parallel) s).1 (answer (.openFile name mode parallel) s).2 := by
  change s.Answered _ (.ok ⟨((s.record (.openFile name mode parallel)).openFile name mode).1, #[]⟩)
    ((s.record (.openFile name mode parallel)).openFile name mode).2
  rcases openFile_cases (s.record (.openFile name mode parallel)) name mode with
    h | ⟨hmode, h⟩ | ⟨m, hmode, hkept, hadmits, h⟩
  · rw [h]
    exact .refused nofun nofun
  · rw [h]
    exact .emptied parallel hmode
  · rw [h]
    exact .opened parallel hmode hkept hadmits

theorem answered_closeFile (s : Store) (file : Int) :
    s.Answered (.closeFile file) (answer (.closeFile file) s).1 (answer (.closeFile file) s).2 := by
  change s.Answered _ (.ok ⟨((s.record (.closeFile file)).closeFile file).1, #[]⟩)
    ((s.record (.closeFile file)).closeFile file).2
  unfold closeFile
  split
  · next hfile => exact .closed hfile
  · next hfile =>
      refine .refused (fun other hother => ?_) nofun
      cases hother
      exact hfile

theorem answered_size (s : Store) (file : Int) (name : String) (dim : Int) :
    s.Answered (.size file name dim)
      (answer (.size file name dim) s).1 (answer (.size file name dim) s).2 := by
  change s.Answered (.size file name dim) (.ok ⟨s.size file name dim, #[]⟩)
    (s.record (.size name dim))
  unfold size
  cases hd : s.dataset? file name with
  | none => exact .refused nofun nofun
  | some found =>
      obtain ⟨source, path, info⟩ := found
      simp only
      by_cases hdim : dim < 0
      · rw [if_pos hdim]
        exact .refused nofun nofun
      · rw [if_neg hdim]
        cases hextent : info.shape[dim.toNat]? with
        | none => exact .refused nofun nofun
        | some extent => exact .sized hd (by omega) hextent

/-- A read that was granted fills the front of the buffer with the cells of a slab. Any other
one leaves the buffer alone. -/
theorem read_ok {file : Int} {name : String} {start count : List Int} {stride : Int}
    {dest : Array Float} {reply : Reply}
    (h : s.read file name start count stride dest = .ok reply) :
    reply = ⟨refused, dest⟩ ∨
      ∃ source path info cells, s.dataset? file name = some (source, path, info) ∧
        Slab.indices info.shape start count stride = .ok (some cells) ∧
        cells.length ≤ dest.size ∧
        reply = ⟨0, (cells.map (element (s.contents.get? source path))).toArray ++
          dest.drop cells.length⟩ := by
  unfold read at h
  cases hd : s.dataset? file name with
  | none =>
      rw [hd] at h
      cases h
      exact .inl rfl
  | some found =>
      obtain ⟨source, path, info⟩ := found
      rw [hd] at h
      obtain ⟨listed, hlisted, h₁⟩ := exists_of_bind_ok h
      cases listed with
      | none =>
          cases h₁
          exact .inl rfl
      | some cells =>
          simp only at h₁
          split at h₁
          · cases h₁
            exact .inl rfl
          · next hdest =>
              cases h₁
              exact .inr ⟨source, path, info, cells, rfl, hlisted, Nat.le_of_not_lt hdest, rfl⟩

theorem answered_read (s : Store) (file : Int) (name : String) (start count : List Int)
    (stride : Int) (dest : Array Float) :
    s.Answered (.read file name start count stride dest)
      (answer (.read file name start count stride dest) s).1
      (answer (.read file name start count stride dest) s).2 := by
  simp only [answer, serve, Call.ofRequest]
  cases hread : (s.record (.read name start count)).read file name start count stride dest with
  | error fault => exact .faulted fault (.inl rfl)
  | ok reply =>
      rcases read_ok hread with rfl | ⟨source, path, info, cells, hd, hcells, hdest, rfl⟩
      · exact .refused nofun nofun
      · exact .read hd hcells hdest

theorem answered_write (s : Store) (file : Int) (name : String) (start count : List Int)
    (stride : Int) (src : Array Float) :
    s.Answered (.write file name start count stride src)
      (answer (.write file name start count stride src) s).1
      (answer (.write file name start count stride src) s).2 := by
  simp only [answer, serve, Call.ofRequest]
  cases hwrite : (s.record (.write name start count)).write file name start count stride src with
  | error fault => exact .faulted fault (.inr rfl)
  | ok p =>
      obtain ⟨status, t⟩ := p
      rcases write_ok hwrite with
        ⟨rfl, rfl⟩ | ⟨source, path, info, cells, stored, hd, hcells, hsrc, hstored, rfl, rfl⟩
      · exact .refused nofun nofun
      · exact .written hd hcells hsrc hstored

theorem answered_createDataset (s : Store) (file : Int) (name : String) (shape : List Int)
    (elem : ElementType) :
    s.Answered (.createDataset file name shape elem)
      (answer (.createDataset file name shape elem) s).1
      (answer (.createDataset file name shape elem) s).2 := by
  simp only [answer, serve, createDataset, Call.ofRequest]
  cases hpath : (s.record (.createDataset name shape elem)).locate? file name with
  | none =>
      refine .refused nofun fun _ _ _ _ heq => ?_
      cases heq
      exact .inl hpath
  | some place =>
      simp only
      by_cases hneg : shape.any (· < 0)
      · simp only [if_pos hneg]
        refine .refused nofun fun _ _ _ _ heq => ?_
        cases heq
        obtain ⟨n, hn, hlt⟩ := List.any_eq_true.mp hneg
        exact .inr ⟨n, hn, of_decide_eq_true hlt⟩
      · simp only [if_neg hneg]
        refine .described elem hpath fun n hn => ?_
        simp only [List.any_eq_true, decide_eq_true_eq, not_exists, not_and] at hneg
        have := hneg n hn
        omega

theorem answered_createGroup (s : Store) (file : Int) (name : String) :
    s.Answered (.createGroup file name)
      (answer (.createGroup file name) s).1 (answer (.createGroup file name) s).2 := by
  simp only [answer, serve, createGroup, Call.ofRequest]
  cases hpath : (s.record (.createGroup name)).locate? file name with
  | none => exact .refused nofun nofun
  | some place => exact .grouped hpath

theorem answered (q : Request) (s : Store) : s.Answered q (answer q s).1 (answer q s).2 := by
  cases q with
  | openFile name mode parallel => exact answered_openFile s name mode parallel
  | closeFile file => exact answered_closeFile s file
  | size file name dim => exact answered_size s file name dim
  | read file name start count stride dest =>
      exact answered_read s file name start count stride dest
  | write file name start count stride src =>
      exact answered_write s file name start count stride src
  | createDataset file name shape elem => exact answered_createDataset s file name shape elem
  | createGroup file name => exact answered_createGroup s file name

/-! ### Refusals -/

/-- The store that is left differs only by the record of the call. -/
structure OnlyRecorded (s : Store) (q : Request) (t : Store) : Prop where
  catalog : t.catalog = s.catalog
  contents : t.contents = s.contents
  handles : t.handles = s.handles
  nextHandle : t.nextHandle = s.nextHandle
  calls : t.calls = s.calls.push (.ofRequest q)

theorem onlyRecorded_record (s : Store) (q : Request) :
    s.OnlyRecorded q (s.record (.ofRequest q)) :=
  ⟨rfl, rfl, rfl, rfl, rfl⟩

theorem refused_neg : refused < 0 := by decide

theorem upcoming_pos (s : Store) : 0 < s.upcoming := by
  unfold upcoming
  omega

/-- Either the record is all that an answer leaves, or the request was granted and was no mere
question. -/
theorem Answered.recorded_or_granted {t : Store} {q : Request} {reply : Reply}
    (h : s.Answered q (.ok reply) t) :
    t = s.record (.ofRequest q) ∧ (reply.status < 0 → reply.buffer = q.buffer) ∨
      0 ≤ reply.status ∧ q.entry ≠ .size ∧ q.entry ≠ .read := by
  generalize hr : (Except.ok reply : Except Fault Reply) = r at h
  have hpos := Int.le_of_lt s.upcoming_pos
  cases h with
  | faulted fault htransfer => cases hr
  | refused =>
      cases hr
      exact .inl ⟨rfl, fun _ => rfl⟩
  | emptied parallel hmode =>
      cases hr
      exact .inr ⟨hpos, nofun, nofun⟩
  | opened parallel hmode hkept hadmits =>
      cases hr
      exact .inr ⟨hpos, nofun, nofun⟩
  | closed hfile =>
      cases hr
      exact .inr ⟨Int.le_refl 0, nofun, nofun⟩
  | sized hd hdim hextent =>
      injection hr with hreply
      subst hreply
      exact .inl ⟨rfl, fun _ => rfl⟩
  | read hd hcells hdest =>
      cases hr
      exact .inl ⟨rfl, fun hneg => absurd hneg (Int.lt_irrefl 0)⟩
  | written hd hcells hsrc hstored =>
      cases hr
      exact .inr ⟨Int.le_refl 0, nofun, nofun⟩
  | described elem hpath hshape =>
      cases hr
      exact .inr ⟨hpos, nofun, nofun⟩
  | grouped hpath =>
      cases hr
      exact .inr ⟨hpos, nofun, nofun⟩

/-- A call that fails changes nothing: whatever the store and the request, a negative status
leaves the store as it was but for the record of this one call, and a buffer that was to be
filled as it was. Extents and reads change nothing even when they are granted. -/
theorem failed_call_changes_nothing (s t : Store) (q : Request) (reply : Reply)
    (h : answer q s = (.ok reply, t)) :
    (reply.status < 0 → s.OnlyRecorded q t ∧ reply.buffer = q.buffer) ∧
    (q.entry = .size ∨ q.entry = .read → s.OnlyRecorded q t) := by
  have hanswered : s.Answered q (.ok reply) t := by simpa only [h] using answered q s
  rcases hanswered.recorded_or_granted with ⟨rfl, hbuffer⟩ | ⟨hstatus, hsize, hread⟩
  · have hrecorded := s.onlyRecorded_record q
    exact ⟨fun hneg => ⟨hrecorded, hbuffer hneg⟩, fun _ => hrecorded⟩
  · refine ⟨fun hneg => absurd hneg (Int.not_lt.mpr hstatus), fun hq => ?_⟩
    exact absurd hq (not_or.mpr ⟨hsize, hread⟩)

/-- A read of two cells of which the dataset has only one. -/
theorem overlongRead_changes_nothing :
    let catalog : Catalog := BySource.empty.insert "a.h5" "m" ⟨.float64, [2]⟩
    let s := (answer (.openFile "a.h5" "r" 0) (ofCatalog catalog)).2
    let q : Request := .read 1 "m" [1] [2] 0 #[5, 6]
    (answer q s).1 = .ok ⟨refused, #[5, 6]⟩ ∧ s.OnlyRecorded q (answer q s).2 := by
  intro catalog s q
  have hreply : (answer q s).1 = .ok ⟨refused, #[5, 6]⟩ := rfl
  have hnothing := failed_call_changes_nothing s (answer q s).2 q ⟨refused, #[5, 6]⟩
    (by rw [← hreply])
  exact ⟨hreply, (hnothing.1 (by decide)).1⟩

end Store

end SpmdArrays
