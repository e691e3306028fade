import SpmdArrays.Proofs.Lowering.Symbols
import SpmdArrays.Proofs.Text.Numerals

/-!
The names that an open function hands out. Registers and labels are numbered on their
own, and the number is written behind a stem: for registers the stem is fixed, for labels
it is whatever hint was given. So no register is given out twice, but a parameter may be
called like a register, and a hint that ends in digits may run into the number behind a
shorter hint. These are the only names that are ever the same.
-/

namespace SpmdArrays.Llvm

/-- The registers that the open function defines, each as often as it does. -/
def Draft.registers (d : Draft) : List Nat :=
  defined (d.definition.slots.toList ++ d.definition.body.toList)

/-- Every number below the next one is the register of one result. -/
def Draft.Counted (d : Draft) : Prop := d.registers.Perm (List.range d.nextRegister)

theorem Draft.counted_start (name : String) (ret : Ty) (params : List (Ty × String))
    (internal : Bool) : (Draft.start name ret params internal).Counted :=
  .refl []

/-- One more result takes the next number, wherever its instruction stands. -/
theorem Draft.Counted.adding {s : Session} {slots body : List Instr} (h : s.draft.Counted)
    (hnext : defined (slots ++ body) = [] ∨ defined (slots ++ body) = [s.draft.nextRegister]) :
    (s.adding slots body).draft.Counted := by
  have hperm : (s.adding slots body).draft.registers.Perm
      (s.draft.registers ++ defined (slots ++ body)) := by
    simp only [registers, Session.adding_slots, Session.adding_body, defined_append,
      List.append_assoc]
    exact ((List.perm_append_comm_assoc ..).append_left _)
  have hrange : (List.range s.draft.nextRegister ++ defined (slots ++ body)).Perm
      (List.range (s.adding slots body).draft.nextRegister) := by
    rw [Session.adding_nextRegister]
    rcases hnext with hnext | hnext <;> rw [hnext]
    · simp
    · simp [List.range_succ]
  exact (hperm.trans (h.append_right _)).trans hrange

/-- The open function has the parameters it had, still one register for each number below
the next one, and as many labels more as are given. -/
structure Session.Continues (labels : Nat) (s t : Session) : Prop where
  params : t.draft.definition.params = s.draft.definition.params
  counted : s.draft.Counted → t.draft.Counted
  labels : t.draft.nextLabel = s.draft.nextLabel + labels

namespace Session.Continues

variable {s t u : Session} {k l : Nat}

theorem of_draft (h : t.draft = s.draft) : Continues 0 s t :=
  ⟨by rw [h], fun hs => h ▸ hs, by rw [h, Nat.add_zero]⟩

theorem trans (h : Continues k s t) (h' : Continues l t u) : Continues (k + l) s u :=
  ⟨h'.params.trans h.params, h'.counted ∘ h.counted, by rw [h'.labels, h.labels, Nat.add_assoc]⟩

theorem adding {slots body : List Instr}
    (hnext : defined (slots ++ body) = [] ∨ defined (slots ++ body) = [s.draft.nextRegister]) :
    Continues 0 s (s.adding slots body) :=
  ⟨rfl, fun h => h.adding hnext, rfl⟩

end Session.Continues

instance : Emit.Composes (Session.Continues 0) where
  refl s := .of_draft rfl
  trans h h' := h.trans h'
  emit s i _ hdst := .adding (by rcases hdst with hdst | hdst <;> simp [hdst])
  slot s type := .adding (.inr rfl)
  call s m callee sig dst args _ hdst := by
    have hon : Session.Continues 0 s (s.on m) := .of_draft rfl
    exact hon.trans (.adding (by rw [hdst]; split <;> simp [Instr.dst?]))

end SpmdArrays.Llvm

namespace SpmdArrays.Lowering

open Llvm (Ty Operand Atom Session Emit Draft Module)

theorem CumulativeSum.continues_ensureHelper (k : ScalarKind) :
    Emit.Follows (Session.Continues 0) (ensureHelper k) := by
  refine ⟨fun s => .of_draft ?_⟩
  unfold ensureHelper
  split
  · rfl
  · split <;> rfl

namespace Step

def hint? : Step → Option String
  | .newLabel hint => some hint
  | _ => none

def after (s : Session) (a : Step) : Session := Emit.final (a.run s)

/-- The label that a step is given. -/
def label? (s : Session) : Step → Option String
  | .newLabel hint => (Emit.newLabel (ε := Error) hint).run' s
  | _ => none

theorem continues_after (s : Session) (a : Step) :
    s.Continues a.hint?.toList.length (after s a) := by
  by_cases hlabel : ∃ hint, a = .newLabel hint
  · obtain ⟨hint, rfl⟩ := hlabel
    exact ⟨rfl, id, rfl⟩
  · have hnone : a.hint? = none := by
      cases a with
      | newLabel hint => exact absurd ⟨hint, rfl⟩ hlabel
      | _ => rfl
    rw [hnone]
    have hrun : Emit.Follows (Session.Continues 0) a.run :=
      a.follows_run CumulativeSum.continues_ensureHelper fun hint h => absurd ⟨hint, h⟩ hlabel
    exact hrun.step s

theorem label?_eq (s : Session) (a : Step) :
    a.label? s = a.hint?.map (· ++ toString s.draft.nextLabel) := by
  cases a <;> rfl

def hints (steps : List Step) : List String := steps.filterMap hint?

def labels (s : Session) : List Step → List String
  | [] => []
  | a :: steps => (a.label? s).toList ++ labels (a.after s) steps

def afterAll (s : Session) (steps : List Step) : Session := steps.foldl after s

theorem continues_afterAll (s : Session) (steps : List Step) :
    s.Continues (hints steps).length (afterAll s steps) := by
  induction steps generalizing s with
  | nil => exact .of_draft rfl
  | cons a steps ih =>
      have hcons : (hints (a :: steps)).length = a.hint?.toList.length + (hints steps).length := by
        cases h : a.hint? <;> simp [hints, h, Nat.add_comm]
      rw [hcons]
      exact (a.continues_after s).trans (ih _)

theorem labels_eq (s : Session) (steps : List Step) :
    labels s steps =
      (hints steps).mapIdx fun i hint => hint ++ toString (s.draft.nextLabel + i) := by
  induction steps generalizing s with
  | nil => rfl
  | cons a steps ih =>
      rw [labels, ih, (a.continues_after s).labels, label?_eq]
      cases h : a.hint? with
      | none => simp [hints, h]
      | some hint => simp [hints, h, List.mapIdx_cons, Nat.add_comm, Nat.add_left_comm]

/-! ### Which names are the same -/

/-- Which names are the same among those of the parameters, the registers and the labels,
by what the parameters are called and by the hints that were given. -/
structure Clashes (params hints registers labels : List String) : Prop where
  registers_nodup : registers.Nodup
  /-- A parameter has the name of a register if it is called like one. -/
  param_iff : ∀ x ∈ params,
    "%" ++ x ∈ registers ↔ ∃ n < registers.length, x = "t" ++ toString n
  entry_not_mem : "entry" ∉ labels
  /-- One label for each hint. -/
  length_labels : labels.length = hints.length
  /-- The earlier label is the later one if its hint goes on where the other hint ends,
  with digits that the later number starts with. -/
  label_iff : ∀ {i j : Nat} {hint hint' : String}, i < j → hints[i]? = some hint →
    hints[j]? = some hint' → (labels[i]? = labels[j]? ↔
      ∃ digits, hint = hint' ++ digits ∧ digits ++ toString i = toString j)
  /-- Hints that end in no digit are safe. -/
  labels_nodup : (∀ hint ∈ hints, ∀ c, hint.toList.getLast? = some c → c.isDigit = false) →
    labels.Nodup

def numbered (hints : List String) : List String := hints.mapIdx fun i hint => hint ++ toString i

@[simp] theorem length_numbered (hints : List String) : (numbered hints).length = hints.length :=
  List.length_mapIdx

theorem getElem?_numbered (hints : List String) (i : Nat) :
    (numbered hints)[i]? = hints[i]?.map (· ++ toString i) := by
  rw [numbered, List.getElem?_mapIdx]

theorem entry_not_mem_numbered (hints : List String) : "entry" ∉ numbered hints := by
  intro hmem
  obtain ⟨i, hi⟩ := List.mem_iff_getElem?.mp hmem
  rw [getElem?_numbered] at hi
  obtain ⟨hint, -, hentry⟩ := Option.map_eq_some_iff.mp hi
  obtain ⟨c, hlast, hdigit⟩ := Text.getLast?_append_toString hint i
  rw [hentry] at hlast
  cases hlast
  revert hdigit
  decide

theorem numbered_eq_iff {hints : List String} {i j : Nat} {hint hint' : String} (hlt : i < j)
    (hi : hints[i]? = some hint) (hj : hints[j]? = some hint') :
    (numbered hints)[i]? = (numbered hints)[j]? ↔
      ∃ digits, hint = hint' ++ digits ∧ digits ++ toString i = toString j := by
  rw [getElem?_numbered, getElem?_numbered, hi, hj, ← Text.append_toString_eq_iff hlt]
  simp

/-- Two labels that are the same have different numbers, so the longer hint ends in one of
the digits of a number. -/
theorem nodup_numbered {hints : List String}
    (h : ∀ hint ∈ hints, ∀ c, hint.toList.getLast? = some c → c.isDigit = false) :
    (numbered hints).Nodup := by
  rw [List.nodup_iff_getElem?_ne_getElem?]
  intro i j hlt hj heq
  rw [length_numbered] at hj
  have hi : hints[i]? = some hints[i] := List.getElem?_eq_getElem (by omega)
  obtain ⟨digits, hhint, hnumber⟩ :=
    (numbered_eq_iff hlt hi (List.getElem?_eq_getElem hj)).mp heq
  have hdigits : digits.toList ≠ [] := by
    intro hnil
    have hsame : toString i = toString j := by
      rw [← hnumber, String.toList_eq_nil_iff.mp hnil, String.empty_append]
    have := Text.toString_inj hsame
    omega
  have hlast : hints[i].toList.getLast? = some (digits.toList.getLast hdigits) := by
    rw [hhint, String.toList_append, List.getLast?_append,
      List.getLast?_eq_some_getLast hdigits, Option.some_or]
  have hmem : digits.toList.getLast hdigits ∈ (toString j).toList := by
    rw [← hnumber, String.toList_append]
    exact List.mem_append_left _ (List.getLast_mem hdigits)
  have hdigit := Text.isDigit_of_mem_toString hmem
  rw [h _ (List.getElem_mem _) _ hlast] at hdigit
  cases hdigit

theorem registerText_mem_iff {d : Draft} (h : d.Counted) (x : String) :
    "%" ++ x ∈ d.registers.map (fun n => (Atom.register n).text) ↔
      ∃ n < d.registers.length, x = "t" ++ toString n := by
  have hlength : d.registers.length = d.nextRegister := by
    rw [h.length_eq, List.length_range]
  have htext : ∀ n, (Atom.register n).text = "%" ++ ("t" ++ toString n) := fun n => by
    rw [← String.append_assoc]
    rfl
  rw [List.mem_map, hlength]
  refine exists_congr fun n => ?_
  rw [h.mem_iff, List.mem_range, htext, String.append_right_inj]
  exact and_congr_right fun _ => eq_comm

theorem nodup_registerText {d : Draft} (h : d.Counted) :
    (d.registers.map fun n => (Atom.register n).text).Nodup := by
  refine List.Nodup.map (fun m n hmn => ?_) (h.nodup_iff.mpr List.nodup_range)
  exact Text.toString_inj (String.append_right_inj _ |>.mp hmn)

/-- For a function with any parameters and for any steps, the ones that fail included: of
the names that it has handed out, those are the same that `Clashes` says, and no others. -/
theorem names_handed_out (m : Module) (name : String) (ret : Ty) (params : List (Ty × String))
    (internal : Bool) (steps : List Step) :
    let s : Session := ⟨m, .start name ret params internal⟩
    let d := (afterAll s steps).draft
    d.definition.params.map (fun p => p.atom.text) = params.map (fun p => "%" ++ p.2) ∧
      Clashes (params.map Prod.snd) (hints steps)
        (d.registers.map fun n => (Atom.register n).text) (labels s steps) := by
  intro s d
  have hrun : s.Continues (hints steps).length (afterAll s steps) := continues_afterAll s steps
  have hcounted : d.Counted := hrun.counted (Draft.counted_start ..)
  have hlabels : labels s steps = numbered (hints steps) := by
    rw [labels_eq]
    simp only [numbered, s, Draft.start, Nat.zero_add]
  refine ⟨?_, ?_⟩
  · rw [hrun.params]
    simp [s, Draft.start, Atom.text]
  · rw [hlabels]
    exact
      { registers_nodup := nodup_registerText hcounted
        param_iff := fun x _ => by rw [registerText_mem_iff hcounted, List.length_map]
        entry_not_mem := entry_not_mem_numbered _
        length_labels := length_numbered _
        label_iff := numbered_eq_iff
        labels_nodup := nodup_numbered }

/-- A parameter called like a register, and a hint that runs into the number behind a
shorter one. -/
theorem clashing_names :
    let s : Session := ⟨.start "m" {}, .start "f" .void [(.i64, "t0")] false⟩
    let steps := .add (.i64 1) (.i64 2) :: .newLabel "l1" ::
      (List.replicate 9 (.newLabel "x") ++ [.newLabel "l"])
    let d := (afterAll s steps).draft
    (∃ p ∈ d.definition.params, ∃ n ∈ d.registers, p.atom.text = (Atom.register n).text) ∧
      (labels s steps)[0]? = (labels s steps)[10]? ∧ (labels s steps).length = 11 := by
  decide +kernel

end Step

end SpmdArrays.Lowering
