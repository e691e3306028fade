import Mathlib.Data.List.Nodup
import Mathlib.Data.List.Perm.Basic
import SpmdArrays.Proofs.Llvm.Following

/-!
The symbols of a module. A module is consistent when it names each symbol once, defines
each name once and under the signature it has recorded, and when every call in a
definition is of a recorded symbol. Computations keep this, whether they give a result or
fail: a failed computation leaves the module it had so far, and never takes a signature
back.
-/

namespace SpmdArrays.Llvm

/-- A function that is consistent with what a module has recorded. -/
structure Definition.Fits (m : Module) (d : Definition) : Prop where
  /-- The parameters are those of the signature. -/
  params : d.params.map Operand.type = d.sig.params
  /-- Only recorded symbols are called, and a result is taken from what has one. -/
  calls : ∀ {dst callee sig args},
    Instr.call dst callee sig args ∈ d.slots.toList ++ d.body.toList →
      m.signature? callee = some sig ∧ (dst = none ↔ sig.ret = .void)

theorem Definition.Fits.knows {m m' : Module} {d : Definition} (h : d.Fits m) (hm : m'.Knows m) :
    d.Fits m' where
  params := h.params
  calls hcall := (h.calls hcall).imp_left hm.signature

theorem Draft.fits_start {m : Module} (name : String) (ret : Ty) (params : List (Ty × String))
    (internal : Bool) : (Draft.start name ret params internal).definition.Fits m where
  params := by simp [Draft.start]
  calls hcall := by simp [Draft.start] at hcall

theorem nodup_map_push {α β : Type} {f : α → β} {xs : Array α} {x : α}
    (h : (xs.toList.map f).Nodup) (hx : f x ∉ xs.toList.map f) :
    ((xs.push x).toList.map f).Nodup := by
  rw [Array.toList_push, List.map_append, List.map_singleton, List.nodup_append]
  refine ⟨h, by simp, fun a ha b hb hab => hx ?_⟩
  rwa [← List.mem_singleton.mp hb, ← hab]

structure Module.Consistent (m : Module) : Prop where
  symbols : (m.symbols.toList.map Prod.fst).Nodup
  definitions : (m.definitions.toList.map Definition.name).Nodup
  recorded : ∀ d ∈ m.definitions.toList, m.signature? d.name = some d.sig ∧ d.Fits m

namespace Module

variable {m m' : Module} {name : String} {sig : Signature}

theorem isDefined_iff : m.isDefined name ↔ name ∈ m.definitions.toList.map Definition.name := by
  simp [isDefined, ← Array.any_toList]

theorem signature?_eq_none_iff :
    m.signature? name = none ↔ name ∉ m.symbols.toList.map Prod.fst := by
  rw [signature?, Option.map_eq_none_iff, ← Array.find?_toList, List.find?_eq_none]
  constructor
  · intro h hmem
    obtain ⟨s, hs, rfl⟩ := List.mem_map.mp hmem
    exact h s hs (beq_self_eq_true _)
  · intro h s hs hname
    exact h (List.mem_map.mpr ⟨s, hs, eq_of_beq hname⟩)

theorem knows_of_symbols (h : m'.symbols = m.symbols) : m'.Knows m :=
  ⟨fun {name _} hsig => by rwa [signature?, h, ← signature?]⟩

theorem consistent_start (name : String) (settings : Settings) :
    (start name settings).Consistent where
  symbols := List.nodup_nil
  definitions := List.nodup_nil
  recorded := by simp [start]

/-- A declaration that is accepted keeps the module consistent. -/
theorem Consistent.declare (h : m.Consistent) (hm : m.declare name sig = .ok m') :
    m'.Consistent := by
  have hknows := knows_of_declare hm
  rcases declare_ok hm with ⟨-, rfl⟩ | ⟨hnone, rfl⟩
  · exact h
  · refine ⟨?_, h.definitions, fun d hd => ?_⟩
    · exact nodup_map_push h.symbols (signature?_eq_none_iff.mp hnone)
    · obtain ⟨hsig, hfits⟩ := h.recorded d hd
      exact ⟨hknows.signature hsig, hfits.knows hknows⟩

theorem knows_define (m : Module) (d : Definition) : (m.define d).2.Knows m := by
  unfold define
  cases hm : m.declare d.name d.sig with
  | error e => exact .refl m
  | ok m₁ =>
      have hknows := knows_of_declare hm
      dsimp only
      split
      · exact hknows
      · exact ⟨hknows.signature⟩

theorem Consistent.define {d : Definition} (h : m.Consistent) (hd : d.Fits m) :
    (m.define d).2.Consistent := by
  unfold Module.define
  cases hm : m.declare d.name d.sig with
  | error e => exact h
  | ok m₁ =>
      have h₁ := h.declare hm
      dsimp only
      split
      · exact h₁
      · rename_i hdefined
        have hknows : ({ m₁ with definitions := m₁.definitions.push d } : Module).Knows m₁ :=
          knows_of_symbols rfl
        refine ⟨h₁.symbols, ?_, fun d' hd' => ?_⟩
        · exact nodup_map_push h₁.definitions (mt isDefined_iff.mpr hdefined)
        · rw [Array.toList_push, List.mem_append, List.mem_singleton] at hd'
          rcases hd' with hd' | rfl
          · obtain ⟨hsig, hfits⟩ := h₁.recorded d' hd'
            exact ⟨hknows.signature hsig, hfits.knows hknows⟩
          · exact ⟨hknows.signature (signature?_of_declare hm),
              hd.knows (hknows.trans (knows_of_declare hm))⟩

/-! ### The text of a module -/

def declared (m : Module) : List (String × Signature) :=
  m.symbols.toList.filter fun s => !m.isDefined s.1

/-- The names that stand in the text: those that are declared, then those defined. -/
def printed (m : Module) : List String :=
  m.declared.map Prod.fst ++ m.definitions.toList.map Definition.name

def header (m : Module) : String :=
  "; ModuleID = '" ++ m.name ++ "'\n" ++ "target datalayout = \"" ++ m.dataLayout ++ "\"\n" ++
    "target triple = \"" ++ m.targetTriple ++ "\"\n\n"

/-- The text of a module fits what the module has recorded. -/
structure Printed (m : Module) : Prop where
  /-- The text consists of a line for each declared symbol and of the definitions. -/
  text : m.text = m.header ++ String.join (m.declared.map declarationText) ++
    (if m.declared.isEmpty then "" else "\n") ++
    String.join (m.definitions.toList.map fun d => d.text ++ "\n")
  /-- Each recorded symbol stands there, and none of them twice. -/
  symbols : m.printed.Perm (m.symbols.toList.map Prod.fst)
  once : m.printed.Nodup
  /-- A line that declares a symbol shows the recorded signature. -/
  declare : ∀ s ∈ m.declared, m.signature? s.1 = some s.2
  /-- So does a line that defines one. -/
  define : ∀ d ∈ m.definitions.toList, ∃ sig, m.signature? d.name = some sig ∧
    d.params.map Operand.type = sig.params ∧
    d.text = "define " ++ (if d.internal then "internal " else "") ++ sig.ret.text ++ " @" ++
      d.name ++ "(" ++ Operand.listText d.params ++ ") \x7b\nentry:\n" ++ linesText d.slots ++
      linesText d.body ++ "\x7d\n"
  /-- A call names a symbol that stands there and shows the recorded return type. -/
  call : ∀ d ∈ m.definitions.toList, ∀ {dst callee sig args},
    Instr.call dst callee sig args ∈ d.slots.toList ++ d.body.toList →
      callee ∈ m.printed ∧ ∃ sig' front, m.signature? callee = some sig' ∧
        (Instr.call dst callee sig args).text =
          front ++ "call " ++ sig'.ret.text ++ " @" ++ callee ++ "(" ++ Operand.listText args ++ ")"

theorem mem_symbols_of_signature? (h : m.signature? name = some sig) :
    name ∈ m.symbols.toList.map Prod.fst := by
  by_contra hnot
  rw [signature?_eq_none_iff.mpr hnot] at h
  cases h

namespace Consistent

variable (h : m.Consistent)
include h

theorem signature?_of_mem {s : String × Signature} (hs : s ∈ m.symbols.toList) :
    m.signature? s.1 = some s.2 := by
  have hsome : (m.symbols.toList.find? fun t => t.1 == s.1).isSome :=
    List.find?_isSome.mpr ⟨s, hs, beq_self_eq_true _⟩
  obtain ⟨t, ht⟩ := Option.isSome_iff_exists.mp hsome
  have hname : t.1 = s.1 := by simpa using List.find?_some ht
  have hst : t = s := List.inj_on_of_nodup_map h.symbols (List.mem_of_find?_eq_some ht) hs hname
  rw [signature?, ← Array.find?_toList, ht, hst]
  rfl

theorem mem_printed_iff : name ∈ m.printed ↔ name ∈ m.symbols.toList.map Prod.fst := by
  rw [printed, List.mem_append]
  constructor
  · rintro (hmem | hmem)
    · obtain ⟨s, hs, rfl⟩ := List.mem_map.mp hmem
      exact List.mem_map_of_mem (List.mem_of_mem_filter hs)
    · obtain ⟨d, hd, rfl⟩ := List.mem_map.mp hmem
      exact mem_symbols_of_signature? (h.recorded d hd).1
  · intro hmem
    by_cases hdefined : m.isDefined name
    · exact .inr (isDefined_iff.mp hdefined)
    · obtain ⟨s, hs, rfl⟩ := List.mem_map.mp hmem
      exact .inl (List.mem_map_of_mem (List.mem_filter.mpr ⟨hs, by simpa using hdefined⟩))

theorem nodup_printed : m.printed.Nodup := by
  refine List.nodup_append'.mpr ⟨?_, h.definitions, ?_⟩
  · exact h.symbols.sublist ((List.filter_sublist ..).map _)
  · intro name hdeclared hdefined
    obtain ⟨s, hs, rfl⟩ := List.mem_map.mp hdeclared
    have hnot := (List.mem_filter.mp hs).2
    rw [isDefined_iff.mpr hdefined] at hnot
    cases hnot

theorem printed : m.Printed where
  text := rfl
  symbols := (List.perm_ext_iff_of_nodup h.nodup_printed h.symbols).mpr fun _ => h.mem_printed_iff
  once := h.nodup_printed
  declare s hs := h.signature?_of_mem (List.mem_of_mem_filter hs)
  define d hd := by
    obtain ⟨hsig, hfits⟩ := h.recorded d hd
    exact ⟨d.sig, hsig, hfits.params, rfl⟩
  call d hd dst callee sig args hmem := by
    obtain ⟨hsig, hdst⟩ := (h.recorded d hd).2.calls hmem
    refine ⟨h.mem_printed_iff.mpr (mem_symbols_of_signature? hsig), sig, ?_⟩
    cases dst with
    | none =>
        have hwords : "  " ++ "call " ++ Ty.void.text ++ " @" = "  call void @" := by decide
        refine ⟨"  ", hsig, ?_⟩
        rw [hdst.mp rfl, hwords]
        rfl
    | some n => exact ⟨Instr.definesText n, hsig, rfl⟩

end Consistent

end Module

/-! ### Computations -/

/-- The session is consistent, the open function included. -/
structure Session.Sound (s : Session) : Prop where
  module : s.module.Consistent
  draft : s.draft.definition.Fits s.module

/-- A session that is consistent stays so, with all signatures as they are. -/
def Session.Keeps (s t : Session) : Prop := s.Sound → t.Sound ∧ t.module.Knows s.module

namespace Emit

variable {ε α : Type}

theorem sound_adding {s : Session} {slots body : List Instr} (h : s.Sound)
    (hcalls : ∀ {dst callee sig args}, Instr.call dst callee sig args ∈ slots ++ body →
      s.module.signature? callee = some sig ∧ (dst = none ↔ sig.ret = .void)) :
    (s.adding slots body).Sound := by
  refine ⟨h.module, h.draft.params, fun {dst callee sig args} hmem => ?_⟩
  rw [Session.adding_slots, Session.adding_body] at hmem
  have hmem : Instr.call dst callee sig args ∈
        s.draft.definition.slots.toList ++ s.draft.definition.body.toList ∨
      Instr.call dst callee sig args ∈ slots ++ body := by
    simp only [List.mem_append] at hmem ⊢
    grind
  rcases hmem with hmem | hmem
  · exact h.draft.calls hmem
  · exact hcalls hmem

theorem keeps_call {s : Session} {m : Module} {callee : String} {sig : Signature}
    {dst : Option Nat} (args : List Operand) (hm : s.module.declare callee sig = .ok m)
    (hdst : dst = none ↔ sig.ret = .void) :
    s.Keeps ((s.on m).adding [] [.call dst callee sig args]) := by
  intro hs
  have hknows := Module.knows_of_declare hm
  have hon : (s.on m).Sound := ⟨hs.module.declare hm, hs.draft.knows hknows⟩
  refine ⟨sound_adding hon fun hmem => ?_, hknows⟩
  cases List.mem_singleton.mp hmem
  exact ⟨Module.signature?_of_declare hm, hdst⟩

instance : Composes Session.Keeps where
  refl s hs := ⟨hs, .refl s.module⟩
  trans h h' hs := by
    obtain ⟨ht, hknows⟩ := h hs
    obtain ⟨hu, hknows'⟩ := h' ht
    exact ⟨hu, hknows'.trans hknows⟩
  emit s i hcall _ hs := by
    refine ⟨sound_adding hs fun hmem => ?_, .refl s.module⟩
    cases List.mem_singleton.mp hmem
    cases hcall
  slot s type hs := ⟨sound_adding hs (by simp), .refl s.module⟩
  call s m callee sig dst args hm hdst := keeps_call args hm (by rw [hdst]; split <;> simp [*])

theorem keeps_newLabel (hint : String) : Follows Session.Keeps (newLabel hint : Emit ε String) :=
  ⟨fun s hs => ⟨⟨hs.module, hs.draft⟩, .refl s.module⟩⟩

theorem keeps_finish : Follows Session.Keeps finish := by
  refine ⟨fun s hs => ?_⟩
  have hknows := Module.knows_define s.module s.draft.definition
  have hsound : (s.on (s.module.define s.draft.definition).2).Sound :=
    ⟨hs.module.define hs.draft, hs.draft.knows hknows⟩
  have hfinal : final (finish s) = s.on (s.module.define s.draft.definition).2 := by
    unfold finish
    split <;> rename_i h <;> rw [h] <;> rfl
  rw [hfinal]
  exact ⟨hsound, hknows⟩

end Emit

end SpmdArrays.Llvm
