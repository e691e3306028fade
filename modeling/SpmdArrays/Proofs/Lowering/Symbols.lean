import SpmdArrays.Proofs.Llvm.Symbols
import SpmdArrays.Proofs.Lowering.Following

/-!
Modules that are built in any order. Functions are opened inside one another, written to
with raw instructions and with lowered primitives, closed or given up, and steps fail in
between. Every action keeps the module consistent and all recorded signatures as they are.
-/

namespace SpmdArrays.Lowering

open Llvm (Ty Operand Instr Signature Session Emit Draft Module Definition)
open Llvm.Emit (Follows Composes)

/-! ### Lowering -/

namespace CumulativeSum

theorem keeps_countedLoop {hint : String} {counter : Operand}
    {body : Operand → Emit Llvm.Error Unit} (hbody : ∀ i, Follows Session.Keeps (body i)) :
    Follows Session.Keeps (countedLoop hint counter body) :=
  (Emit.keeps_newLabel _).bind fun _ => (Emit.keeps_newLabel _).bind fun _ =>
    (Emit.keeps_newLabel _).bind fun _ => (Emit.follows_br _).bind fun _ =>
      (Emit.follows_label _).bind fun _ => (Emit.follows_load ..).bind fun i =>
        (Emit.follows_icmp ..).bind fun _ => (Emit.follows_condBr ..).bind fun _ =>
          (Emit.follows_label _).bind fun _ => (hbody i).bind fun _ =>
            (Emit.follows_add ..).bind fun _ => (Emit.follows_store ..).bind fun _ =>
              (Emit.follows_br _).bind fun _ => Emit.follows_label _

theorem keeps_accumulate (elem : Ty) (acc i : Operand) :
    Follows Session.Keeps (accumulate elem acc i) :=
  (Emit.follows_gep ..).bind fun _ => (Emit.follows_load ..).bind fun _ =>
    (Emit.follows_load ..).bind fun _ => (Emit.follows_add ..).bind fun sum =>
      (Emit.follows_store ..).bind fun _ => Emit.follows_pure sum

theorem keeps_helperBody (k : ScalarKind) : Follows Session.Keeps (helperBody k) :=
  (Emit.follows_alloca _).bind fun _ => (Emit.follows_alloca _).bind fun _ =>
    (Emit.follows_store ..).bind fun _ => (Emit.follows_store ..).bind fun _ =>
      (keeps_countedLoop fun _ => (keeps_accumulate ..).bind fun _ => Emit.follows_pure ()).bind
        fun _ => (Emit.follows_load ..).bind fun _ => (Emit.follows_call ..).bind fun _ =>
          (Emit.follows_store ..).bind fun _ => (Emit.follows_store ..).bind fun _ =>
            (keeps_countedLoop fun _ => (keeps_accumulate ..).bind fun _ =>
              (Emit.follows_gep ..).bind fun _ => Emit.follows_store ..).bind
                fun _ => (Emit.follows_ret _).bind fun _ => Emit.keeps_finish

/-- The helper is written in a function of its own; the open one waits. -/
theorem keeps_ensureHelper (k : ScalarKind) : Follows Session.Keeps (ensureHelper k) := by
  refine ⟨fun s hs => ?_⟩
  have hbody := (keeps_helperBody k).step ⟨s.module, helperDraft k⟩
    ⟨hs.module, Draft.fits_start ..⟩
  unfold ensureHelper
  split
  · exact ⟨hs, .refl s.module⟩
  · cases hr : helperBody k ⟨s.module, helperDraft k⟩ with
    | error e t | ok a t =>
        rw [hr] at hbody
        exact ⟨⟨hbody.1.module, hs.draft.knows hbody.2⟩, hbody.2⟩

end CumulativeSum

/-! ### Building a module -/

inductive Step where
  | newLabel (hint : String)
  | label (name : String)
  | alloca (type : Ty)
  | store (value ptr : Operand)
  | load (type : Ty) (ptr : Operand)
  | gep (elem : Ty) (ptr : Operand) (indices : List Operand)
  | add (lhs rhs : Operand)
  | mul (lhs rhs : Operand)
  | icmp (pred : String) (lhs rhs : Operand)
  | select (cond ifTrue ifFalse : Operand)
  | br (target : String)
  | condBr (cond : Operand) (ifTrue ifFalse : String)
  | ret (value : Option Operand)
  | call (callee : String) (sig : Signature) (args : List Operand)
  | lower (w : Source)
  deriving DecidableEq, Repr

def Step.run : Step → Lower Unit
  | .newLabel hint => discard (Emit.newLabel hint)
  | .label name => Emit.label name
  | .alloca type => discard (Emit.alloca type)
  | .store value ptr => Emit.store value ptr
  | .load type ptr => discard (Emit.load type ptr)
  | .gep elem ptr indices => discard (Emit.gep elem ptr indices)
  | .add lhs rhs => discard (Emit.add lhs rhs)
  | .mul lhs rhs => discard (Emit.mul lhs rhs)
  | .icmp pred lhs rhs => discard (Emit.icmp pred lhs rhs)
  | .select cond ifTrue ifFalse => discard (Emit.select cond ifTrue ifFalse)
  | .br target => Emit.br target
  | .condBr cond ifTrue ifFalse => Emit.condBr cond ifTrue ifFalse
  | .ret value => Emit.ret value
  | .call callee sig args => discard (Lower.lift (Emit.call callee sig args))
  | .lower w => discard w.lower

/-- A step does what its operations do; reserving a label is not one of them. -/
theorem Step.follows_run {R : Session → Session → Prop} [Composes R]
    (hhelper : ∀ k, Follows R (CumulativeSum.ensureHelper k)) (a : Step)
    (hlabel : ∀ hint, a = .newLabel hint → Follows (ε := Error) R (Emit.newLabel hint)) :
    Follows R a.run := by
  have hdiscard : ∀ {α : Type} {x : Lower α}, Follows R x → Follows R (discard x) :=
    fun hx => hx.bind fun _ => Emit.follows_pure _
  cases a with
  | newLabel hint => exact hdiscard (hlabel hint rfl)
  | label name => exact Emit.follows_label name
  | alloca type => exact hdiscard (Emit.follows_alloca type)
  | store value ptr => exact Emit.follows_store ..
  | load type ptr => exact hdiscard (Emit.follows_load ..)
  | gep elem ptr indices => exact hdiscard (Emit.follows_gep ..)
  | add lhs rhs => exact hdiscard (Emit.follows_add ..)
  | mul lhs rhs => exact hdiscard (Emit.follows_mul ..)
  | icmp pred lhs rhs => exact hdiscard (Emit.follows_icmp ..)
  | select cond ifTrue ifFalse => exact hdiscard (Emit.follows_select ..)
  | br target => exact Emit.follows_br target
  | condBr cond ifTrue ifFalse => exact Emit.follows_condBr ..
  | ret value => exact Emit.follows_ret value
  | call callee sig args => exact hdiscard (Lower.follows_lift (Emit.follows_call ..))
  | lower w => exact hdiscard (follows_lower hhelper w)

/-- A module under construction and the functions that are open, the innermost first. -/
structure Workbench where
  module : Module
  drafts : List Draft := []
  deriving DecidableEq, Repr

inductive Action where
  | declare (name : String) (sig : Signature)
  | start (name : String) (ret : Ty) (params : List (Ty × String)) (internal : Bool)
  | step (a : Step)
  | finish
  /-- The innermost function is given up. -/
  | abandon
  deriving DecidableEq, Repr

namespace Workbench

def onInnermost {ε α : Type} (w : Workbench) (x : Emit ε α) : Workbench :=
  match w.drafts with
  | [] => w
  | d :: ds =>
    let t := Emit.final (x ⟨w.module, d⟩)
    ⟨t.module, t.draft :: ds⟩

def close (w : Workbench) : Workbench := { w with drafts := w.drafts.tail }

/-- One action. What fails leaves behind what it has done so far. -/
def act (w : Workbench) : Action → Workbench
  | .declare name sig =>
    match w.module.declare name sig with
    | .ok m => { w with module := m }
    | .error _ => w
  | .start name ret params internal =>
    { w with drafts := .start name ret params internal :: w.drafts }
  | .step a => w.onInnermost a.run
  | .finish => (w.onInnermost Emit.finish).close
  | .abandon => w.close

def run (w : Workbench) (actions : List Action) : Workbench := actions.foldl act w

/-- The module is consistent, and so are the open functions. -/
structure Sound (w : Workbench) : Prop where
  module : w.module.Consistent
  drafts : ∀ d ∈ w.drafts, d.definition.Fits w.module

variable {w : Workbench}

theorem Sound.onInnermost {ε α : Type} {x : Emit ε α} (h : w.Sound)
    (hx : Follows Session.Keeps x) :
    (w.onInnermost x).Sound ∧ (w.onInnermost x).module.Knows w.module := by
  unfold Workbench.onInnermost
  split
  · exact ⟨h, .refl w.module⟩
  · rename_i d ds hdrafts
    have hd : ∀ d' ∈ d :: ds, d'.definition.Fits w.module := hdrafts ▸ h.drafts
    obtain ⟨hsound, hknows⟩ := hx.step ⟨w.module, d⟩ ⟨h.module, hd d (.head _)⟩
    refine ⟨⟨hsound.module, fun d' hd' => ?_⟩, hknows⟩
    rcases List.mem_cons.mp hd' with rfl | hd'
    · exact hsound.draft
    · exact (hd d' (.tail _ hd')).knows hknows

theorem Sound.close (h : w.Sound) : w.close.Sound :=
  ⟨h.module, fun d hd => h.drafts d (List.mem_of_mem_tail hd)⟩

theorem keeps_step (a : Step) : Follows Session.Keeps a.run :=
  a.follows_run CumulativeSum.keeps_ensureHelper fun hint _ => Emit.keeps_newLabel hint

/-- No action, whether it succeeds or fails, breaks a module or changes a signature. -/
theorem Sound.act (h : w.Sound) (a : Action) :
    (w.act a).Sound ∧ (w.act a).module.Knows w.module := by
  cases a with
  | declare name sig =>
      rw [Workbench.act]
      cases hm : w.module.declare name sig with
      | error e => exact ⟨h, .refl w.module⟩
      | ok m =>
          have hknows := Llvm.Module.knows_of_declare hm
          exact ⟨⟨h.module.declare hm, fun d hd => (h.drafts d hd).knows hknows⟩, hknows⟩
  | start name ret params internal =>
      refine ⟨⟨h.module, fun d hd => ?_⟩, .refl w.module⟩
      rcases List.mem_cons.mp hd with rfl | hd
      · exact Draft.fits_start ..
      · exact h.drafts d hd
  | step a => exact h.onInnermost (keeps_step a)
  | finish => exact (h.onInnermost Emit.keeps_finish).imp_left Sound.close
  | abandon => exact ⟨h.close, .refl w.module⟩

theorem Sound.run (h : w.Sound) (actions : List Action) :
    (w.run actions).Sound ∧ (w.run actions).module.Knows w.module := by
  induction actions generalizing w with
  | nil => exact ⟨h, .refl w.module⟩
  | cons a actions ih =>
      obtain ⟨hact, hknows⟩ := h.act a
      obtain ⟨hrun, hknows'⟩ := ih hact
      exact ⟨hrun, hknows'.trans hknows⟩

def fresh (name : String) (settings : Settings) : Workbench := { module := .start name settings }

theorem sound_fresh (name : String) (settings : Settings) : (fresh name settings).Sound :=
  ⟨Llvm.Module.consistent_start name settings, by simp [fresh]⟩

/-- Whatever is done to a module, in whatever order and with whatever failures: what it
has recorded of a symbol stays as it is for good, its text names each recorded symbol
once and agrees with the records, and no helper is defined twice. -/
theorem symbols_of_run (name : String) (settings : Settings) (actions later : List Action) :
    let w := (fresh name settings).run actions
    (w.run later).module.Knows w.module ∧ w.module.Printed ∧
      ∀ k, (w.module.definitions.toList.map Definition.name).count
        (CumulativeSum.helperName k) ≤ 1 := by
  intro w
  have hw : w.Sound := ((sound_fresh name settings).run actions).1
  exact ⟨(hw.run later).2, hw.module.printed,
    fun k => List.nodup_iff_count_le_one.mp hw.module.definitions _⟩

end Workbench

end SpmdArrays.Lowering
