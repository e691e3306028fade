import SpmdArrays.Proofs.Exec.Statuses
import SpmdArrays.Proofs.Store.Handles
import SpmdArrays.Proofs.Store.Transfers

/-!
Stores that answer alike. A dataset that was never written reads as zeros, so it makes no
difference whether its zeros are stored or not, for as long as a first write would store the
same ones. Two stores that differ only in this, and in the calls on record, answer every
request in the same way, and differ only in this afterwards. It follows that no later request
can tell the two apart, unless the dataset gets another number of cells while they still
differ: zeros that are stored keep their number.
-/

namespace SpmdArrays

namespace Store

/-- The request describes the dataset at this place anew, and a first write would then begin
with other zeros. -/
def Reallots (s : Store) (source path : String) : Request → Prop
  | .createDataset file name shape elem =>
    s.locate? file name = some (source, path) ∧ (∀ n ∈ shape, 0 ≤ n) ∧
      ∃ info, s.catalog.get? source path = some info ∧
        zeros ⟨elem, shape.map Int.toNat⟩ ≠ zeros info
  | _ => False

/-- There is a dataset at this place, and nothing is stored of it. -/
def Unstored (s : Store) (source path : String) : Prop :=
  (∃ info, s.catalog.get? source path = some info) ∧ s.contents.get? source path = none

/-- Of a dataset of which the first store holds nothing, the second one holds the zeros that
a first write would begin with. -/
def ZeroFilled (s t : Store) (source path : String) : Prop :=
  ∃ info v, s.catalog.get? source path = some info ∧ zeros info = .ok v ∧
    s.contents.get? source path = none ∧ t.contents.get? source path = some v

theorem ZeroFilled.unstored {s t : Store} {source path : String} (h : s.ZeroFilled t source path) :
    s.Unstored source path := by
  obtain ⟨info, v, hinfo, -, hnone, -⟩ := h
  exact ⟨⟨info, hinfo⟩, hnone⟩

/-- The stores differ only in the calls on record and, at some of these places, in zeros that
are stored or not. -/
structure Alike (places : String → String → Prop) (s t : Store) : Prop where
  catalog : t.catalog = s.catalog
  handles : t.handles = s.handles
  nextHandle : t.nextHandle = s.nextHandle
  contents : ∀ source path, t.contents.get? source path = s.contents.get? source path ∨
    places source path ∧ s.ZeroFilled t source path

namespace Alike

variable {places : String → String → Prop} {s t : Store}

theorem unstored (h : Alike places s t) :
    Alike (fun source path => places source path ∧ s.Unstored source path) s t :=
  ⟨h.catalog, h.handles, h.nextHandle, fun source path =>
    (h.contents source path).imp_right fun ⟨hplace, hzeros⟩ => ⟨⟨hplace, hzeros.unstored⟩, hzeros⟩⟩

theorem record (h : Alike places s t) (c c' : Call) : Alike places (s.record c) (t.record c') :=
  ⟨h.catalog, h.handles, h.nextHandle, h.contents⟩

theorem locate? (h : Alike places s t) (file : Int) (name : String) :
    t.locate? file name = s.locate? file name := by
  unfold Store.locate?
  rw [h.handles]

theorem dataset? (h : Alike places s t) (file : Int) (name : String) :
    t.dataset? file name = s.dataset? file name := by
  unfold Store.dataset?
  rw [h.locate?, h.catalog]

/-! ### Handles and catalogs -/

theorem grant (h : Alike places s t) (l : Handle) :
    (t.grant l).1 = (s.grant l).1 ∧ Alike places (s.grant l).2 (t.grant l).2 := by
  have hnext : t.upcoming = s.upcoming := by
    unfold upcoming
    rw [h.nextHandle]
  refine ⟨hnext, h.catalog, ?_, ?_, h.contents⟩
  · simp only [Store.grant, hnext, h.handles]
  · simp only [Store.grant, hnext]

theorem clearSource (h : Alike places s t) (name : String) :
    Alike places
      { s with catalog := s.catalog.clearSource name, contents := s.contents.eraseSource name }
      { t with
        catalog := t.catalog.clearSource name
        contents := t.contents.eraseSource name } := by
  refine ⟨congrArg (BySource.clearSource · name) h.catalog, h.handles, h.nextHandle, ?_⟩
  intro source path
  simp only [ZeroFilled, BySource.get?_eraseSource, BySource.get?_clearSource]
  by_cases hsource : name = source
  · simp [hsource]
  · simp only [if_neg hsource]
    exact h.contents source path

theorem addSource (h : Alike places s t) (name : String) :
    Alike places { s with catalog := s.catalog.addSource name }
      { t with catalog := t.catalog.addSource name } := by
  refine ⟨congrArg (BySource.addSource · name) h.catalog, h.handles, h.nextHandle, ?_⟩
  intro source path
  simpa only [ZeroFilled, BySource.get?_addSource] using h.contents source path

theorem openFile (h : Alike places s t) (name mode : String) :
    (t.openFile name mode).1 = (s.openFile name mode).1 ∧
      Alike places (s.openFile name mode).2 (t.openFile name mode).2 := by
  unfold Store.openFile
  rw [h.catalog]
  split
  · exact ⟨rfl, h⟩
  · split
    · simp only
      split
      · have hcleared := h.clearSource name
        rw [h.catalog] at hcleared
        exact hcleared.grant _
      · have hadded := h.addSource name
        rw [h.catalog] at hadded
        exact hadded.grant _
    · exact ⟨rfl, h⟩

theorem closeFile (h : Alike places s t) (file : Int) :
    (t.closeFile file).1 = (s.closeFile file).1 ∧
      Alike places (s.closeFile file).2 (t.closeFile file).2 := by
  unfold Store.closeFile
  rw [h.handles]
  split
  · exact ⟨rfl, h.catalog, rfl, h.nextHandle, h.contents⟩
  · exact ⟨rfl, h⟩

theorem describe (h : Alike places s t) {source path : String} {info : DatasetInfo}
    (hsame : places source path → ∀ old, s.catalog.get? source path = some old →
      zeros info = zeros old) :
    Alike places { s with catalog := s.catalog.insert source path info }
      { t with catalog := t.catalog.insert source path info } := by
  refine ⟨congrArg (BySource.insert · source path info) h.catalog, h.handles, h.nextHandle, ?_⟩
  intro source' path'
  simp only [ZeroFilled, BySource.get?_insert]
  rcases h.contents source' path' with hkept | ⟨hplace, old, v, hold, hv, hnone, hzeros⟩
  · exact .inl hkept
  · by_cases hhere : source = source' ∧ path = path'
    · obtain ⟨rfl, rfl⟩ := hhere
      exact .inr ⟨hplace, info, v, by simp, (hsame hplace old hold).trans hv, hnone, hzeros⟩
    · exact .inr ⟨hplace, old, v, by rw [if_neg hhere, hold], hv, hnone, hzeros⟩

theorem createDataset (h : Alike places s t) {file : Int} {name : String} {shape : List Int}
    {elem : ElementType}
    (hq : ∀ source path, places source path →
      ¬ s.Reallots source path (.createDataset file name shape elem)) :
    (t.createDataset file name shape elem).1 = (s.createDataset file name shape elem).1 ∧
      Alike places (s.createDataset file name shape elem).2
        (t.createDataset file name shape elem).2 := by
  unfold Store.createDataset
  rw [h.locate?]
  cases hplace : s.locate? file name with
  | none => exact ⟨rfl, h⟩
  | some found =>
      obtain ⟨source, path⟩ := found
      simp only
      by_cases hneg : shape.any (· < 0)
      · rw [if_pos hneg, if_pos hneg]
        exact ⟨rfl, h⟩
      · rw [if_neg hneg, if_neg hneg]
        refine (h.describe fun hhere old hold => ?_).grant _
        apply Classical.byContradiction
        intro hother
        refine hq source path hhere ⟨hplace, fun n hn => ?_, old, hold, hother⟩
        simp only [List.any_eq_true, decide_eq_true_eq, not_exists, not_and] at hneg
        have := hneg n hn
        omega

theorem createGroup (h : Alike places s t) (file : Int) (name : String) :
    (t.createGroup file name).1 = (s.createGroup file name).1 ∧
      Alike places (s.createGroup file name).2 (t.createGroup file name).2 := by
  unfold Store.createGroup
  rw [h.locate?]
  split
  · exact ⟨rfl, h⟩
  · exact h.grant _

/-! ### Elements -/

theorem element_replicate (n i : Nat) : element (some (Array.replicate n 0)) i = 0 := by
  unfold element
  rw [Option.bind_some, Array.getElem?_replicate]
  split <;> rfl

theorem element_zeros {info : DatasetInfo} {v : Array Float} (h : zeros info = .ok v) (i : Nat) :
    element (some v) i = 0 := by
  obtain ⟨n, -, h₁⟩ := exists_of_bind_ok h
  obtain ⟨-, -, h₂⟩ := exists_of_bind_ok h₁
  cases h₂
  exact element_replicate n.toNat i

theorem element_eq (h : Alike places s t) (source path : String) :
    element (t.contents.get? source path) = element (s.contents.get? source path) := by
  rcases h.contents source path with hsame | ⟨-, info, v, -, hv, hnone, hzeros⟩
  · rw [hsame]
  · funext i
    rw [hnone, hzeros, element_zeros hv]
    rfl

theorem read (h : Alike places s t) (file : Int) (name : String) (start count : List Int)
    (stride : Int) (dest : Array Float) :
    t.read file name start count stride dest = s.read file name start count stride dest := by
  unfold Store.read
  rw [h.dataset?]
  split
  · rfl
  · simp only [h.element_eq]

theorem withContents (h : Alike places s t) (source path : String) (v : Array Float) :
    Alike places (s.withContents source path v) (t.withContents source path v) := by
  refine ⟨h.catalog, h.handles, h.nextHandle, fun source' path' => ?_⟩
  simp only [Store.withContents, ZeroFilled, BySource.get?_insert]
  by_cases hhere : source = source' ∧ path = path'
  · simp [hhere]
  · simp only [if_neg hhere]
    exact h.contents source' path'

theorem write (h : Alike places s t) (file : Int) (name : String) (start count : List Int)
    (stride : Int) (src : Array Float) :
    (∃ fault, s.write file name start count stride src = .error fault ∧
      t.write file name start count stride src = .error fault) ∨
    ∃ status s' t', s.write file name start count stride src = .ok (status, s') ∧
      t.write file name start count stride src = .ok (status, t') ∧ Alike places s' t' := by
  unfold Store.write
  rw [h.dataset?]
  cases hd : s.dataset? file name with
  | none => exact .inr ⟨refused, s, t, rfl, rfl, h⟩
  | some found =>
      obtain ⟨source, path, info⟩ := found
      simp only
      cases Slab.indices info.shape start count stride with
      | error fault => exact .inl ⟨fault, rfl, rfl⟩
      | ok listed =>
          simp only [ok_bind]
          cases listed with
          | none => exact .inr ⟨refused, s, t, rfl, rfl, h⟩
          | some cells =>
              simp only
              by_cases hsrc : src.size < cells.length
              · rw [if_pos hsrc, if_pos hsrc]
                exact .inr ⟨refused, s, t, rfl, rfl, h⟩
              · rw [if_neg hsrc, if_neg hsrc]
                rcases h.contents source path with hsame | ⟨-, other, v, hother, hv, hnone, hzeros⟩
                · rw [hsame]
                  cases s.contents.get? source path with
                  | some v => exact .inr ⟨0, _, _, rfl, rfl, h.withContents source path _⟩
                  | none =>
                      cases zeros info with
                      | error fault => exact .inl ⟨fault, rfl, rfl⟩
                      | ok v => exact .inr ⟨0, _, _, rfl, rfl, h.withContents source path _⟩
                · -- the zeros that are stored are those that a first write would begin with
                  cases (dataset?_ok hd).symm.trans hother
                  rw [hnone, hzeros]
                  simp only [hv]
                  exact .inr ⟨0, _, _, rfl, rfl, h.withContents source path _⟩

/-! ### Answers -/

/-- Both give the same answer, and what they are afterwards is alike. -/
theorem answer (h : Alike places s t) {q : Request}
    (hq : ∀ source path, places source path → ¬ s.Reallots source path q) :
    (Store.answer q t).1 = (Store.answer q s).1 ∧
      Alike places (Store.answer q s).2 (Store.answer q t).2 := by
  have hrecord := h.record (.ofRequest q) (.ofRequest q)
  have hreply : ∀ {m n : Int}, m = n →
      (.ok ⟨m, #[]⟩ : Except Fault Reply) = .ok ⟨n, #[]⟩ := fun heq => by rw [heq]
  cases q with
  | openFile name mode parallel =>
      obtain ⟨hstatus, hafter⟩ := hrecord.openFile name mode
      exact ⟨hreply hstatus, hafter⟩
  | closeFile file =>
      obtain ⟨hstatus, hafter⟩ := hrecord.closeFile file
      exact ⟨hreply hstatus, hafter⟩
  | size file name dim =>
      refine ⟨hreply ?_, hrecord⟩
      unfold Store.size
      rw [hrecord.dataset?]
  | read file name start count stride dest =>
      have hread := hrecord.read file name start count stride dest
      simp only [Store.answer, serve, hread]
      cases (s.record _).read file name start count stride dest with
      | error fault => exact ⟨rfl, hrecord⟩
      | ok reply => exact ⟨rfl, hrecord⟩
  | write file name start count stride src =>
      simp only [Store.answer, serve]
      rcases hrecord.write file name start count stride src with
        ⟨fault, hs, ht⟩ | ⟨status, s', t', hs, ht, hafter⟩
      · rw [hs, ht]
        exact ⟨rfl, hrecord⟩
      · rw [hs, ht]
        exact ⟨rfl, hafter⟩
  | createDataset file name shape elem =>
      have hkeeps : ∀ source path, places source path →
          ¬ (s.record (.createDataset name shape elem)).Reallots source path
            (.createDataset file name shape elem) := hq
      obtain ⟨hstatus, hafter⟩ := hrecord.createDataset hkeeps
      exact ⟨hreply hstatus, hafter⟩
  | createGroup file name =>
      obtain ⟨hstatus, hafter⟩ := hrecord.createGroup file name
      exact ⟨hreply hstatus, hafter⟩

/-- Nothing that is asked later tells the stores apart, unless it comes while nothing has been
stored at a place where they differ, and describes the dataset anew. -/
theorem conversation (h : Alike places s t) {qs : List Request}
    (hqs : ∀ k q source path, qs[k]? = some q → places source path →
      (∀ j ≤ k, (device.after s (qs.take j)).Unstored source path) →
      ¬ (device.after s (qs.take k)).Reallots source path q) :
    device.conversation t qs = device.conversation s qs := by
  induction qs generalizing s t places with
  | nil => rfl
  | cons q qs ih =>
      obtain ⟨hreply, hafter⟩ := h.unstored.answer (q := q) fun source path hplace =>
        hqs 0 q source path rfl hplace.1 fun j hj => by
          obtain rfl := Nat.le_zero.mp hj
          exact hplace.2
      rw [Device.conversation, Device.conversation]
      refine congrArg₂ List.cons (congrArg (Prod.mk q) hreply) (ih hafter ?_)
      intro k p source path hp hplace hunstored
      refine hqs (k + 1) p source path hp hplace.1 fun j hj => ?_
      cases j with
      | zero => exact hplace.2
      | succ j => exact hunstored j (Nat.le_of_succ_le_succ hj)

end Alike

end Store

end SpmdArrays
