import Mathlib.Data.List.Induction
import SpmdArrays.Proofs.Exec.Statuses
import SpmdArrays.Proofs.Store.Answers

/-!
Handles over a whole run of the reference device. What is known of a handle is read off the
conversation so far: who was given it, and whether anybody asked to close it since. The
table of the device holds exactly the handles that are still held in this sense, and since
the numbers only go up, no handle ever comes to stand for something else. A location is
obtained by opening a source and going down from group to group; the path it stands for is
the names of the groups on the way, whatever became of the handles above.
-/

namespace SpmdArrays

def Request.gives : Request → Bool
  | .openFile .. | .createDataset .. | .createGroup .. => true
  | _ => false

def Request.givesLocation : Request → Bool
  | .openFile .. | .createGroup .. => true
  | _ => false

def Request.location? : Request → Option Int
  | .size file .. | .read file .. | .write file .. => some file
  | .createDataset file .. | .createGroup file .. => some file
  | .openFile .. | .closeFile .. => none

/-- The same request below another location and under another name. -/
def Request.redirect (file : Int) (name : String) : Request → Request
  | .size _ _ dim => .size file name dim
  | .read _ _ start count stride dest => .read file name start count stride dest
  | .write _ _ start count stride src => .write file name start count stride src
  | .createDataset _ _ shape elem => .createDataset file name shape elem
  | .createGroup _ _ => .createGroup file name
  | q => q

namespace Exchange

def given? : Exchange → Option Int
  | (q, .ok reply) => if q.gives ∧ 0 ≤ reply.status then some reply.status else none
  | (_, .error _) => none

def handed (xs : List Exchange) : List Int := xs.filterMap given?

/-- The handle was given out to a request of this kind, and no request asked to close it
since. -/
def Held (kind : Request → Bool) (xs : List Exchange) (h : Int) : Prop :=
  ∃ before x after, xs = before ++ x :: after ∧ kind x.1 ∧ given? x = some h ∧
    ∀ y ∈ after, y.1 ≠ .closeFile h

/-- How a location was come by: a source was opened, or a group created below a location that
had been come by before. The names of the groups are listed from the outermost one. -/
inductive Obtained (opener : Int) (source : String) : List Exchange → List String → Int → Prop
  | opened {before after : List Exchange} {mode : String} {parallel : Int} {r : Except Fault Reply}
      (hgiven : given? (.openFile source mode parallel, r) = some opener) :
      Obtained opener source (before ++ (.openFile source mode parallel, r) :: after) [] opener
  | grouped {before after : List Exchange} {groups : List String} {parent h : Int} {name : String}
      {r : Except Fault Reply} (hparent : Obtained opener source before groups parent)
      (hgiven : given? (.createGroup parent name, r) = some h) :
      Obtained opener source (before ++ (.createGroup parent name, r) :: after)
        (groups ++ [name]) h

theorem Obtained.append {opener h : Int} {source : String} {groups : List String}
    {xs : List Exchange} (hx : Obtained opener source xs groups h) (ys : List Exchange) :
    Obtained opener source (xs ++ ys) groups h := by
  cases hx with
  | opened hgiven =>
      rw [List.append_assoc, List.cons_append]
      exact .opened hgiven
  | grouped hparent hgiven =>
      rw [List.append_assoc, List.cons_append]
      exact .grouped hparent hgiven

theorem Obtained.opener {opener h : Int} {source : String} {groups : List String}
    {xs : List Exchange} (hx : Obtained opener source xs groups h) :
    Obtained opener source xs [] opener := by
  induction hx with
  | opened hgiven => exact .opened hgiven
  | grouped _ _ ih => exact ih.append _

theorem gives_of_given? {q : Request} {r : Except Fault Reply} {h : Int}
    (hgiven : given? (q, r) = some h) : q.gives := by
  cases r with
  | error fault => cases hgiven
  | ok reply =>
      simp only [given?] at hgiven
      split at hgiven
      · next hcond => exact hcond.1
      · cases hgiven

theorem given?_of_not_gives {q : Request} (hq : q.gives = false) (r : Except Fault Reply) :
    given? (q, r) = none := by
  cases r with
  | error fault => rfl
  | ok reply => simp [given?, hq]

theorem handed_concat_of_none (xs : List Exchange) {x : Exchange} (h : given? x = none) :
    handed (xs ++ [x]) = handed xs := by
  simp [handed, h]

theorem handed_concat_of_some (xs : List Exchange) {x : Exchange} {n : Int}
    (h : given? x = some n) : handed (xs ++ [x]) = handed xs ++ [n] := by
  simp [handed, h]

theorem held_nil {kind : Request → Bool} {h : Int} : ¬ Held kind [] h := by
  rintro ⟨before, x, after, heq, -⟩
  simp at heq

/-- A handle is held after one more exchange if this one gave it out, or if it was held and
this one is no request to close it. -/
theorem held_concat {kind : Request → Bool} {xs : List Exchange} {x : Exchange} {h : Int} :
    Held kind (xs ++ [x]) h ↔
      kind x.1 ∧ given? x = some h ∨ Held kind xs h ∧ x.1 ≠ .closeFile h := by
  constructor
  · rintro ⟨before, y, after, heq, hkind, hgiven, hopen⟩
    rcases List.eq_nil_or_concat after with rfl | ⟨rest, z, rfl⟩
    · obtain ⟨rfl, hxy⟩ := List.append_inj' heq rfl
      cases hxy
      exact .inl ⟨hkind, hgiven⟩
    · rw [List.concat_eq_append, ← List.cons_append, ← List.append_assoc] at heq
      obtain ⟨rfl, hxz⟩ := List.append_inj' heq rfl
      cases hxz
      refine .inr ⟨⟨before, y, rest, rfl, hkind, hgiven, fun w hw => ?_⟩, ?_⟩
      · exact hopen w (by simp [hw])
      · exact hopen x (by simp)
  · rintro (⟨hkind, hgiven⟩ | ⟨⟨before, y, after, rfl, hkind, hgiven, hopen⟩, hx⟩)
    · exact ⟨xs, x, [], rfl, hkind, hgiven, by simp⟩
    · refine ⟨before, y, after ++ [x], by simp, hkind, hgiven, fun w hw => ?_⟩
      rcases List.mem_append.mp hw with hw | hw
      · exact hopen w hw
      · rw [List.mem_singleton.mp hw]
        exact hx

end Exchange

open Exchange

namespace Store

variable {s t : Store} {q : Request} {r : Except Fault Reply}

/-! ### What an answer does to the handles -/

def Yields (s : Store) : Request → Handle → Prop
  | .openFile name _ _, l => l = .location name ""
  | .createDataset .., l => l = .dataset
  | .createGroup file name, l =>
    ∃ source path, s.locate? file name = some (source, path) ∧ l = .location source (path ++ "/")
  | _, _ => False

inductive Handled (s : Store) (q : Request) (r : Except Fault Reply) (t : Store) : Prop
  | kept (hgiven : given? (q, r) = none)
      (hclose : ∀ file, q = .closeFile file → ¬ s.handles.contains file)
      (hhandles : t.handles = s.handles) (hnext : t.nextHandle = s.nextHandle)
  | gave (l : Handle) (hgiven : given? (q, r) = some s.upcoming) (hl : s.Yields q l)
      (hhandles : t.handles = s.handles.insert s.upcoming l)
      (hnext : t.nextHandle = s.upcoming + 1)
  | closed (file : Int) (hq : q = .closeFile file) (hhandles : t.handles = s.handles.erase file)
      (hnext : t.nextHandle = s.nextHandle)

theorem given?_upcoming (hq : q.gives) (buffer : Array Float) :
    given? (q, .ok ⟨s.upcoming, buffer⟩) = some s.upcoming :=
  if_pos ⟨hq, Int.le_of_lt s.upcoming_pos⟩

theorem Answered.handled (h : s.Answered q r t) : s.Handled q r t := by
  cases h with
  | faulted fault htransfer =>
      refine .kept rfl (fun file hq => ?_) rfl rfl
      subst hq
      simp [Request.entry] at htransfer
  | refused hclose =>
      refine .kept (if_neg fun hcond => ?_) hclose rfl rfl
      exact Int.not_le.mpr refused_neg hcond.2
  | emptied parallel hmode => exact .gave _ (given?_upcoming rfl _) rfl rfl rfl
  | opened parallel hmode hkept hadmits => exact .gave _ (given?_upcoming rfl _) rfl rfl rfl
  | closed hfile => exact .closed _ rfl rfl rfl
  | sized hd hdim hextent => exact .kept (given?_of_not_gives rfl _) nofun rfl rfl
  | read hd hcells hdest => exact .kept (given?_of_not_gives rfl _) nofun rfl rfl
  | written hd hcells hsrc hstored => exact .kept (given?_of_not_gives rfl _) nofun rfl rfl
  | described elem hpath hshape => exact .gave _ (given?_upcoming rfl _) rfl rfl rfl
  | grouped hpath => exact .gave _ (given?_upcoming rfl _) ⟨_, _, hpath, rfl⟩ rfl rfl

theorem upcoming_of_next (hnext : t.nextHandle = s.nextHandle) : t.upcoming = s.upcoming := by
  rw [upcoming, hnext, upcoming]

theorem upcoming_of_given (hnext : t.nextHandle = s.upcoming + 1) :
    t.upcoming = s.upcoming + 1 := by
  have := s.upcoming_pos
  rw [upcoming, hnext]
  omega

theorem Handled.upcoming_le (h : s.Handled q r t) : s.upcoming ≤ t.upcoming := by
  cases h with
  | kept hgiven hclose hhandles hnext => exact Int.le_of_eq (upcoming_of_next hnext).symm
  | gave l hgiven hl hhandles hnext =>
      rw [upcoming_of_given hnext]
      omega
  | closed file hq hhandles hnext => exact Int.le_of_eq (upcoming_of_next hnext).symm

theorem Handled.handles_of_lt (h : s.Handled q r t) {n : Int} (hn : n < s.upcoming) {l : Handle}
    (hl : t.handles[n]? = some l) : s.handles[n]? = some l := by
  cases h with
  | kept hgiven hclose hhandles hnext => rwa [hhandles] at hl
  | gave l' hgiven hl' hhandles hnext =>
      have hne : s.upcoming ≠ n := by omega
      rw [hhandles, Std.TreeMap.getElem?_insert] at hl
      simpa [hne] using hl
  | closed file hq hhandles hnext =>
      rw [hhandles, Std.TreeMap.getElem?_erase] at hl
      split at hl
      · cases hl
      · exact hl

theorem handles_after_of_lt {n : Int} (hn : n < s.upcoming) {qs : List Request} {l : Handle}
    (hl : (device.after s qs).handles[n]? = some l) : s.handles[n]? = some l := by
  induction qs generalizing s with
  | nil => exact hl
  | cons q qs ih =>
      have hstep := (answered q s).handled
      exact hstep.handles_of_lt hn (ih (Int.lt_of_lt_of_le hn hstep.upcoming_le) hl)

/-! ### The table and the conversation -/

/-- The handles of a store are those that the conversation accounts for. -/
structure Tracked (xs : List Exchange) (t : Store) : Prop where
  ascending : (handed xs).Pairwise (· < ·)
  bounds : ∀ h ∈ handed xs, 0 < h ∧ h < t.upcoming
  contains_iff : ∀ h, t.handles.contains h ↔ Held Request.gives xs h
  location : ∀ (h : Int) (source stem : String),
    t.handles[h]? = some (.location source stem) → Held Request.givesLocation xs h

theorem tracked_nil (hs : s.handles = {}) : Tracked [] s where
  ascending := .nil
  bounds h hh := by simp [handed] at hh
  contains_iff h := by simp [hs, held_nil]
  location h source stem hh := by simp [hs] at hh

theorem Tracked.kept {xs : List Exchange} (hs : Tracked xs s) (hgiven : given? (q, r) = none)
    (hclose : ∀ file, q = .closeFile file → ¬ s.handles.contains file)
    (hhandles : t.handles = s.handles) (hnext : t.nextHandle = s.nextHandle) :
    Tracked (xs ++ [(q, r)]) t := by
  have hhanded := handed_concat_of_none xs hgiven
  refine ⟨by rw [hhanded]; exact hs.ascending, ?_, fun h => ?_, fun h source stem hl => ?_⟩
  · rw [hhanded, upcoming_of_next hnext]
    exact hs.bounds
  · rw [held_concat, hgiven, hhandles, hs.contains_iff]
    refine ⟨fun hheld => .inr ⟨hheld, fun hq => ?_⟩, ?_⟩
    · exact hclose h hq ((hs.contains_iff h).mpr hheld)
    · rintro (⟨-, hnone⟩ | ⟨hheld, -⟩)
      · cases hnone
      · exact hheld
  · rw [hhandles] at hl
    refine held_concat.mpr (.inr ⟨hs.location h source stem hl, fun hq => ?_⟩)
    exact hclose h hq (by simp [Std.TreeMap.contains_eq_isSome_getElem?, hl])

theorem Tracked.gave {xs : List Exchange} (hs : Tracked xs s) {l : Handle}
    (hgiven : given? (q, r) = some s.upcoming) (hl : s.Yields q l)
    (hhandles : t.handles = s.handles.insert s.upcoming l)
    (hnext : t.nextHandle = s.upcoming + 1) : Tracked (xs ++ [(q, r)]) t := by
  have hgives := gives_of_given? hgiven
  have hq : ∀ h, q ≠ .closeFile h := by
    rintro h rfl
    cases hgives
  have hhanded := handed_concat_of_some xs hgiven
  refine ⟨?_, fun h hh => ?_, fun h => ?_, fun h source stem hh => ?_⟩
  · rw [hhanded, List.pairwise_append]
    refine ⟨hs.ascending, List.pairwise_singleton .., fun a ha b hb => ?_⟩
    rw [List.mem_singleton.mp hb]
    exact (hs.bounds a ha).2
  · rw [upcoming_of_given hnext]
    rw [hhanded, List.mem_append, List.mem_singleton] at hh
    rcases hh with hh | rfl
    · have := hs.bounds h hh
      omega
    · have := s.upcoming_pos
      omega
  · rw [held_concat, hgiven, hhandles, Std.TreeMap.contains_insert, Bool.or_eq_true,
      hs.contains_iff]
    simp [hgives, hq h]
  · rw [held_concat, hgiven]
    rw [hhandles, Std.TreeMap.getElem?_insert] at hh
    split at hh
    · next heq =>
        cases hh
        refine .inl ⟨?_, congrArg some (Std.LawfulEqCmp.eq_of_compare heq)⟩
        cases q <;> simp_all [Yields, Request.givesLocation]
    · exact .inr ⟨hs.location h source stem hh, hq h⟩

theorem Tracked.closed {xs : List Exchange} (hs : Tracked xs s) {file : Int}
    (hhandles : t.handles = s.handles.erase file) (hnext : t.nextHandle = s.nextHandle) :
    Tracked (xs ++ [(.closeFile file, r)]) t := by
  have hgiven : given? (.closeFile file, r) = none := given?_of_not_gives rfl r
  have hhanded := handed_concat_of_none xs hgiven
  refine ⟨by rw [hhanded]; exact hs.ascending, ?_, fun h => ?_, fun h source stem hl => ?_⟩
  · rw [hhanded, upcoming_of_next hnext]
    exact hs.bounds
  · rw [held_concat, hgiven, hhandles, Std.TreeMap.contains_erase, Bool.and_eq_true,
      hs.contains_iff]
    simp [and_comm]
  · rw [hhandles, Std.TreeMap.getElem?_erase] at hl
    split at hl
    · cases hl
    · next hne =>
        refine held_concat.mpr (.inr ⟨hs.location h source stem hl, fun heq => hne ?_⟩)
        cases heq
        simp

theorem Handled.tracked (h : s.Handled q r t) {xs : List Exchange} (hs : Tracked xs s) :
    Tracked (xs ++ [(q, r)]) t := by
  cases h with
  | kept hgiven hclose hhandles hnext => exact hs.kept hgiven hclose hhandles hnext
  | gave l hgiven hl hhandles hnext => exact hs.gave hgiven hl hhandles hnext
  | closed file hq hhandles hnext =>
      subst hq
      exact hs.closed hhandles hnext

theorem tracked_after (hs : s.handles = {}) (qs : List Request) :
    Tracked (device.conversation s qs) (device.after s qs) := by
  induction qs using List.reverseRecOn with
  | nil => exact tracked_nil hs
  | append_singleton qs q ih =>
      rw [device.conversation_concat, device.after_concat]
      exact (answered q _).handled.tracked ih

/-! ### Requests that need a handle -/

theorem locate?_eq_some {file : Int} {name source path : String} :
    s.locate? file name = some (source, path) ↔
      ∃ stem, s.handles[file]? = some (.location source stem) ∧ stem ++ name = path := by
  unfold locate?
  split
  · next source' stem hfile => simp [hfile, and_comm]
  · next hother =>
      refine ⟨nofun, ?_⟩
      rintro ⟨stem, hfile, -⟩
      exact absurd hfile (hother source stem)

theorem Answered.exists_location {reply : Reply} (h : s.Answered q (.ok reply) t) {file : Int}
    (hfile : q.location? = some file) (hstatus : 0 ≤ reply.status) :
    ∃ source stem, s.handles[file]? = some (.location source stem) := by
  have hexists : ∀ {name source path : String}, s.locate? file name = some (source, path) →
      ∃ source stem, s.handles[file]? = some (.location source stem) := by
    intro name source path hplace
    obtain ⟨stem, hstem, -⟩ := locate?_eq_some.mp hplace
    exact ⟨source, stem, hstem⟩
  generalize hr : (Except.ok reply : Except Fault Reply) = r at h
  cases h with
  | faulted fault htransfer => cases hr
  | refused hclose =>
      cases hr
      exact absurd hstatus (Int.not_le.mpr refused_neg)
  | emptied parallel hmode => cases hfile
  | opened parallel hmode hkept hadmits => cases hfile
  | closed hopen => cases hfile
  | sized hd hdim hextent =>
      cases hfile
      exact hexists (dataset?_eq_some.mp hd).1
  | read hd hcells hdest =>
      cases hfile
      exact hexists (dataset?_eq_some.mp hd).1
  | written hd hcells hsrc hstored =>
      cases hfile
      exact hexists (dataset?_eq_some.mp hd).1
  | described elem hpath hshape =>
      cases hfile
      exact hexists hpath
  | grouped hpath =>
      cases hfile
      exact hexists hpath

theorem close_granted_iff (s : Store) (file : Int) :
    (∃ reply, (answer (.closeFile file) s).1 = .ok reply ∧ 0 ≤ reply.status) ↔
      s.handles.contains file := by
  have h := answered_closeFile s file
  generalize (answer (.closeFile file) s).1 = r, (answer (.closeFile file) s).2 = t at h
  cases h with
  | faulted fault htransfer => simp [Request.entry] at htransfer
  | refused hclose =>
      refine iff_of_false ?_ (hclose file rfl)
      rintro ⟨reply, hreply, hstatus⟩
      cases hreply
      exact Int.not_le.mpr refused_neg hstatus
  | closed hfile => exact iff_of_true ⟨_, rfl, Int.le_refl 0⟩ hfile

/-! ### Paths -/

def stem (groups : List String) : String := String.join (groups.map (· ++ "/"))

theorem stem_concat (groups : List String) (name : String) :
    stem (groups ++ [name]) = stem groups ++ name ++ "/" := by
  simp [stem, String.join_append, String.join_cons, String.append_assoc]

theorem stem_append (groups : List String) (name : String) :
    stem groups ++ name = String.intercalate "/" (groups ++ [name]) := by
  induction groups with
  | nil => simp [stem]
  | cons g gs ih =>
      have hrest : stem (g :: gs) = g ++ "/" ++ stem gs := by simp [stem, String.join_cons]
      rw [hrest, String.append_assoc, ih]
      cases gs with
      | nil => rfl
      | cons g' gs' => exact String.intercalate_cons_cons.symm

theorem exists_of_conversation_eq {qs : List Request} {before after : List Exchange}
    (h : device.conversation s qs = before ++ (q, r) :: after) :
    ∃ qs₁ qs₂, qs = qs₁ ++ q :: qs₂ ∧ device.conversation s qs₁ = before ∧
      (answer q (device.after s qs₁)).1 = r := by
  induction before generalizing s qs with
  | nil =>
      cases qs with
      | nil => cases h
      | cons p qs =>
          simp only [Device.conversation, List.nil_append, List.cons.injEq, Prod.mk.injEq] at h
          obtain ⟨⟨rfl, hr⟩, -⟩ := h
          exact ⟨[], qs, rfl, rfl, hr⟩
  | cons x before ih =>
      cases qs with
      | nil => cases h
      | cons p qs =>
          simp only [Device.conversation, List.cons_append, List.cons.injEq] at h
          obtain ⟨hx, hrest⟩ := h
          obtain ⟨qs₁, qs₂, rfl, hbefore, hr⟩ := ih hrest
          refine ⟨p :: qs₁, qs₂, rfl, ?_, hr⟩
          rw [Device.conversation, hx, hbefore]

/-- A handle that was given out stands for what it was given out for, if for anything. -/
theorem yields_of_given {qs₁ qs₂ : List Request} {n : Int}
    (hgiven : given? (q, (answer q (device.after s qs₁)).1) = some n) {l : Handle}
    (hl : (device.after s (qs₁ ++ q :: qs₂)).handles[n]? = some l) :
    (device.after s qs₁).Yields q l := by
  have hsplit : device.after s (qs₁ ++ q :: qs₂) =
      device.after (answer q (device.after s qs₁)).2 qs₂ := by
    simp only [Device.after, List.foldl_append, List.foldl_cons]
    rfl
  rw [hsplit] at hl
  rcases (answered q (device.after s qs₁)).handled with
    ⟨hnone, -, -, -⟩ | ⟨l', hsome, hyields, hhandles, hnext⟩ | ⟨file, hq, -, -⟩
  · rw [hgiven] at hnone
    cases hnone
  · cases hgiven.symm.trans hsome
    have hold := handles_after_of_lt (by rw [upcoming_of_given hnext]; omega) hl
    rw [hhandles, Std.TreeMap.getElem?_insert_self] at hold
    cases hold
    exact hyields
  · subst hq
    rw [given?_of_not_gives rfl] at hgiven
    cases hgiven

/-- A location stands for its source and for the groups on the way to it. -/
theorem location_of_obtained {opener n : Int} {source : String} {groups : List String}
    {xs : List Exchange} (h : Obtained opener source xs groups n) {qs : List Request}
    (hxs : device.conversation s qs = xs) {l : Handle}
    (hl : (device.after s qs).handles[n]? = some l) : l = .location source (stem groups) := by
  induction h generalizing qs l with
  | opened hgiven =>
      obtain ⟨qs₁, qs₂, rfl, -, hr⟩ := exists_of_conversation_eq hxs
      rw [← hr] at hgiven
      exact yields_of_given hgiven hl
  | @grouped before after groups parent n name r hparent hgiven ih =>
      obtain ⟨qs₁, qs₂, rfl, hbefore, hr⟩ := exists_of_conversation_eq hxs
      rw [← hr] at hgiven
      obtain ⟨source', path, hplace, rfl⟩ := yields_of_given hgiven hl
      obtain ⟨stem', hstem, rfl⟩ := locate?_eq_some.mp hplace
      cases ih hbefore hstem
      rw [stem_concat]

theorem serve_redirect {file file' : Int} {name name' : String}
    (h : s.locate? file name = s.locate? file' name') (q : Request) :
    s.serve (q.redirect file name) = s.serve (q.redirect file' name') := by
  have hd : s.dataset? file name = s.dataset? file' name' := by
    unfold dataset?
    rw [h]
  cases q with
  | openFile name mode parallel => rfl
  | closeFile file => rfl
  | size file name dim => simp only [Request.redirect, serve, size, hd]
  | read file name start count stride dest => simp only [Request.redirect, serve, read, hd]
  | write file name start count stride src => simp only [Request.redirect, serve, write, hd]
  | createDataset file name shape elem => simp only [Request.redirect, serve, createDataset, h]
  | createGroup file name => simp only [Request.redirect, serve, createGroup, h]

theorem dataset?_of_locate? {file : Int} {name source path : String}
    (h : s.locate? file name = some (source, path)) :
    s.dataset? file name = (s.catalog.get? source path).map fun info => (source, path, info) := by
  unfold dataset?
  simp only [h, Option.bind_eq_bind, Option.bind_some]
  cases s.catalog.get? source path <;> rfl

/-- The handles of a run from a store that has given out none yet. Those that are given out go
up from one, so that none comes a second time. Below a handle a request is granted only while
the handle is held as that of a location, and exactly the handles that are held can be closed.
And a location that is held addresses, below the source that was opened, the path made of
the groups on the way, and is served as that path is through the handle of the source. -/
theorem handles_disciplined (catalog : Catalog) (contents : BySource (Array Float))
    (qs : List Request) :
    let s : Store := { ofCatalog catalog with contents }
    let t := device.after s qs
    let xs := device.conversation s qs
    ((handed xs).Pairwise (· < ·) ∧ ∀ h ∈ handed xs, 0 < h) ∧
    (∀ q h reply, q.location? = some h → (answer q t).1 = .ok reply → 0 ≤ reply.status →
      Held Request.givesLocation xs h) ∧
    (∀ h, (∃ reply, (answer (.closeFile h) t).1 = .ok reply ∧ 0 ≤ reply.status) ↔
      Held Request.gives xs h) ∧
    (∀ opener source groups h, Obtained opener source xs groups h → Held Request.gives xs h →
      ∀ name, let path := String.intercalate "/" (groups ++ [name])
        t.locate? h name = some (source, path) ∧
        t.dataset? h name = (t.catalog.get? source path).map (fun info => (source, path, info)) ∧
        (Held Request.gives xs opener →
          ∀ q : Request, t.serve (q.redirect h name) = t.serve (q.redirect opener path))) := by
  intro s t xs
  have htracked : Tracked xs t := tracked_after rfl qs
  -- both a location and its opener are found in the table under their numbers
  have hlocate : ∀ {opener source groups h}, Obtained opener source xs groups h →
      Held Request.gives xs h → ∀ name, t.locate? h name = some (source, stem groups ++ name) := by
    intro opener source groups h hobtained hheld name
    have hin := (htracked.contains_iff h).mpr hheld
    rw [Std.TreeMap.contains_eq_isSome_getElem?, Option.isSome_iff_exists] at hin
    obtain ⟨l, hl⟩ := hin
    cases location_of_obtained hobtained rfl hl
    exact locate?_eq_some.mpr ⟨_, hl, rfl⟩
  refine ⟨⟨htracked.ascending, fun h hh => (htracked.bounds h hh).1⟩, ?_, fun h => ?_, ?_⟩
  · intro q h reply hq hreply hstatus
    have hanswered := answered q t
    rw [hreply] at hanswered
    obtain ⟨source, stem, hl⟩ := hanswered.exists_location hq hstatus
    exact htracked.location h source stem hl
  · rw [close_granted_iff, htracked.contains_iff]
  · intro opener source groups h hobtained hheld name path
    have hplace : t.locate? h name = some (source, path) := by
      rw [hlocate hobtained hheld, stem_append]
    refine ⟨hplace, dataset?_of_locate? hplace, fun hopener q => serve_redirect ?_ q⟩
    rw [hplace, hlocate hobtained.opener hopener]
    simp [stem]

/-- A group inside a group, after both handles above it have been closed. -/
theorem innerGroup_addresses :
    let s := ofCatalog .empty
    let qs : List Request := [.openFile "a.h5" "w" 0, .createGroup 1 "runs", .createGroup 2 "first",
      .closeFile 2, .closeFile 1]
    Held Request.gives (device.conversation s qs) 3 ∧
      (device.after s qs).locate? 3 "mesh" = some ("a.h5", "runs/first/mesh") := by
  intro s qs
  have hxs : device.conversation s qs = [] ++ (.openFile "a.h5" "w" 0, .ok ⟨1, #[]⟩) :: [] ++
      (.createGroup 1 "runs", .ok ⟨2, #[]⟩) :: [] ++ (.createGroup 2 "first", .ok ⟨3, #[]⟩) ::
      [(.closeFile 2, .ok ⟨0, #[]⟩), (.closeFile 1, .ok ⟨0, #[]⟩)] := rfl
  have hobtained : Obtained 1 "a.h5" (device.conversation s qs) ["runs", "first"] 3 := by
    rw [hxs]
    exact .grouped (.grouped (.opened rfl) rfl) rfl
  have hheld : Held Request.gives (device.conversation s qs) 3 := by
    rw [hxs]
    exact ⟨_, _, _, rfl, rfl, rfl, by simp⟩
  obtain ⟨-, -, -, hpaths⟩ := handles_disciplined .empty .empty qs
  refine ⟨hheld, ((hpaths 1 "a.h5" ["runs", "first"] 3 hobtained hheld "mesh").1).trans ?_⟩
  decide

end Store

end SpmdArrays
