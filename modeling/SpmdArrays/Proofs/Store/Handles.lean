import SpmdArrays.Proofs.Exec.Calls
import SpmdArrays.Store.Basic

/-!
What stays when the reference device answers. Opening sources that are there,
asking for extents, reading and writing neither add nor change a dataset, and
every handle that was given out goes on standing for what it stood for.
-/

namespace SpmdArrays

/-- Requests that leave the catalog and the handles given out before alone. -/
def Request.KeepsCatalog : Request → Prop
  | .openFile _ mode _ => mode = "r"
  | .size .. | .read .. | .write .. => True
  | .closeFile .. | .createDataset .. | .createGroup .. => False

namespace Store

/-- Handles are given out from below. -/
def HandlesBelow (s : Store) : Prop :=
  ∀ (h : Int) (l : Handle), s.handles[h]? = some l → h < s.nextHandle

structure Extends (s t : Store) : Prop where
  catalog : ∀ source path, t.catalog.get? source path = s.catalog.get? source path
  handles : ∀ (h : Int) (l : Handle), s.handles[h]? = some l → t.handles[h]? = some l
  below : t.HandlesBelow

variable {s t : Store}

theorem Extends.refl (h : s.HandlesBelow) : s.Extends s := ⟨fun _ _ => rfl, fun _ _ => id, h⟩

theorem HandlesBelow.lt_upcoming (hs : s.HandlesBelow) {h : Int} {l : Handle}
    (hl : s.handles[h]? = some l) : h < s.upcoming :=
  Int.lt_of_lt_of_le (hs h l hl) (Int.le_max_left _ _)

theorem handlesBelow_ofCatalog (catalog : Catalog) : (ofCatalog catalog).HandlesBelow := by
  intro h l hl
  simp [ofCatalog] at hl

theorem handles_grant (s : Store) (l : Handle) : (s.grant l).2.handles[s.upcoming]? = some l := by
  simp [grant]

theorem extends_grant (hs : s.HandlesBelow) (l : Handle) : s.Extends (s.grant l).2 where
  catalog _ _ := rfl
  handles h k hk := by
    have hne : s.upcoming ≠ h := (Int.ne_of_lt (hs.lt_upcoming hk)).symm
    simp only [grant, Std.TreeMap.getElem?_insert]
    rw [if_neg (by simpa using hne), hk]
  below h k hk := by
    simp only [grant, Std.TreeMap.getElem?_insert] at hk
    split at hk
    · rename_i heq
      have := Std.LawfulEqCmp.eq_of_compare heq
      simp only [grant]
      omega
    · have := hs.lt_upcoming hk
      simp only [grant]
      omega

theorem Extends.trans {u : Store} (h : s.Extends t) (h' : t.Extends u) : s.Extends u :=
  ⟨fun src p => (h'.catalog src p).trans (h.catalog src p),
    fun n l hl => h'.handles n l (h.handles n l hl), h'.below⟩

theorem openFile_existing (s : Store) (name : String) :
    s.openFile name "r" =
      if s.catalog.hasSource name then
        { s with catalog := s.catalog.addSource name }.grant (.location name "")
      else (refused, s) := by
  rfl

theorem extends_openFile (hs : s.HandlesBelow) (name : String) :
    s.Extends (s.openFile name "r").2 := by
  rw [openFile_existing]
  split
  · have hadd : s.Extends { s with catalog := s.catalog.addSource name } :=
      ⟨fun source path => BySource.get?_addSource s.catalog name source path, fun _ _ => id, hs⟩
    exact hadd.trans (extends_grant hadd.below _)
  · exact .refl hs

theorem handles_openFile {name : String} (h : 0 ≤ (s.openFile name "r").1) :
    (s.openFile name "r").2.handles[(s.openFile name "r").1]? = some (.location name "") := by
  rw [openFile_existing] at h ⊢
  split at h
  · rename_i hsource
    rw [if_pos hsource]
    exact handles_grant ..
  · change 0 ≤ refused at h
    exact absurd h (by decide)

theorem extends_record (hs : s.HandlesBelow) (c : Call) : s.Extends (s.record c) :=
  ⟨fun _ _ => rfl, fun _ _ => id, hs⟩

theorem dataset?_eq_some {file : Int} {name source path : String} {info : DatasetInfo} :
    s.dataset? file name = some (source, path, info) ↔
      s.locate? file name = some (source, path) ∧ s.catalog.get? source path = some info := by
  unfold dataset?
  simp only [Option.bind_eq_bind, Option.bind_eq_some_iff]
  constructor
  · rintro ⟨⟨source', path'⟩, hplace, info', hinfo, heq⟩
    cases heq
    exact ⟨hplace, hinfo⟩
  · rintro ⟨hplace, hinfo⟩
    exact ⟨(source, path), hplace, info, hinfo, rfl⟩

theorem dataset?_ok {file : Int} {name source path : String} {info : DatasetInfo}
    (h : s.dataset? file name = some (source, path, info)) :
    s.catalog.get? source path = some info :=
  (dataset?_eq_some.mp h).2

/-- A write that was granted puts elements into the cells of a slab of a known dataset,
over those that were stored or over zeros. Any other one leaves the store alone. -/
theorem write_ok {file : Int} {name : String} {start count : List Int} {stride status : Int}
    {src : Array Float} (h : s.write file name start count stride src = .ok (status, t)) :
    (status = refused ∧ t = s) ∨
      ∃ source path info cells stored, s.dataset? file name = some (source, path, info) ∧
        Slab.indices info.shape start count stride = .ok (some cells) ∧
        cells.length ≤ src.size ∧
        (s.contents.get? source path = some stored ∨
          s.contents.get? source path = none ∧ zeros info = .ok stored) ∧
        status = 0 ∧ t = s.withContents source path (scatter stored cells src) := by
  unfold write at h
  split at h
  · cases h
    exact .inl ⟨rfl, rfl⟩
  · next source path info hd =>
      obtain ⟨listed, hlisted, h₁⟩ := exists_of_bind_ok h
      split at h₁
      · cases h₁
        exact .inl ⟨rfl, rfl⟩
      · next cells =>
          split at h₁
          · cases h₁
            exact .inl ⟨rfl, rfl⟩
          · next hsrc =>
              simp only at h₁
              split at h₁
              · next stored hstored =>
                  cases h₁
                  exact .inr ⟨source, path, info, cells, stored, hd, hlisted, Nat.le_of_not_lt hsrc,
                    .inl hstored, rfl, rfl⟩
              · next hnone =>
                  obtain ⟨stored, hzeros, h₂⟩ := exists_of_bind_ok h₁
                  cases h₂
                  exact .inr ⟨source, path, info, cells, stored, hd, hlisted, Nat.le_of_not_lt hsrc,
                    .inr ⟨hnone, hzeros⟩, rfl, rfl⟩

theorem extends_write {file : Int} {name : String} {start count : List Int} {stride status : Int}
    {src : Array Float} (hs : s.HandlesBelow)
    (h : s.write file name start count stride src = .ok (status, t)) : s.Extends t := by
  rcases write_ok h with ⟨-, rfl⟩ | ⟨source, path, info, cells, stored, -, -, -, -, -, rfl⟩
  · exact .refl hs
  · exact ⟨fun _ _ => rfl, fun _ _ => id, hs⟩

theorem extends_serve {q : Request} {reply : Reply} (hs : s.HandlesBelow) (hq : q.KeepsCatalog)
    (h : s.serve q = .ok (reply, t)) : s.Extends t := by
  cases q with
  | openFile name mode n =>
      cases hq
      cases h
      exact extends_openFile hs name
  | closeFile file => exact hq.elim
  | size file name dim =>
      cases h
      exact .refl hs
  | read file name start count stride dest =>
      obtain ⟨r, -, h₁⟩ := exists_of_bind_ok h
      cases h₁
      exact .refl hs
  | write file name start count stride src =>
      obtain ⟨⟨status, u⟩, hw, h₁⟩ := exists_of_bind_ok h
      cases h₁
      exact extends_write hs hw
  | createDataset file name shape elem => exact hq.elim
  | createGroup file name => exact hq.elim

/-- What an answer to such a request leaves. -/
theorem extends_answer {q : Request} {r : Except Fault Reply} (hs : s.HandlesBelow)
    (hq : q.KeepsCatalog) (h : answer q s = (r, t)) : s.Extends t := by
  have hrecord := extends_record hs (Call.ofRequest q)
  unfold answer at h
  simp only at h
  cases hserve : (s.record (Call.ofRequest q)).serve q with
  | error fault =>
      rw [hserve] at h
      cases h
      exact hrecord
  | ok p =>
      rw [hserve] at h
      cases h
      exact hrecord.trans (extends_serve hrecord.below hq hserve)

theorem handles_answer {name : String} {n : Int} {reply : Reply}
    (h : answer (.openFile name "r" n) s = (.ok reply, t)) (hstatus : 0 ≤ reply.status) :
    t.handles[reply.status]? = some (.location name "") := by
  cases h
  exact handles_openFile hstatus

end Store

end SpmdArrays
