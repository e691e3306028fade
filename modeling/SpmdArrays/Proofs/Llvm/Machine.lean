import Mathlib.Logic.Relation
import SpmdArrays.Llvm.Session
import SpmdArrays.Proofs.Llvm.Memory
import SpmdArrays.Proofs.Text.Numerals

/-!
What code does when it runs. Arithmetic wraps around; an address that leaves its object
may be computed but is no longer one that can be used, and a choice may still discard it;
symbols that are called stand for given functions, and the calls are kept in order. What
has no meaning here (floating-point arithmetic, a type that is no word in memory, a block
that is run into) stops the machine, so a run that ends has used none of it.
-/

namespace SpmdArrays.Llvm

/-- What a name can stand for. -/
inductive Datum where
  /-- An integer in its signed reading, or the bits of a floating-point number. -/
  | word (v : Int)
  | bit (b : Bool)
  | pointer (p : Pointer)
  | null
  /-- An address outside of its object. -/
  | poison
  deriving DecidableEq, Repr

/-- The functions behind the symbols that are called. -/
abbrev Native := String → List Datum → Option Datum

/-- A function that is running. -/
structure Frame where
  /-- Names are told apart by their text. -/
  names : String → Option Datum
  memory : Memory
  /-- The calls so far, with their arguments. -/
  calls : List (String × List Datum) := []

def BinaryOp.apply (op : BinaryOp) (type : Ty) (a b : Int) : Option Int :=
  match op with
  | .add => if type.isInt && type.isWord then some (type.wrap (a + b)) else none
  | .mul => if type.isInt && type.isWord then some (type.wrap (a * b)) else none
  | .fadd | .fmul => none

def compare? (pred : String) (a b : Int) : Option Bool :=
  match pred with
  | "eq" => some (a = b)
  | "ne" => some (a ≠ b)
  | "slt" => some (a < b)
  | "sle" => some (a ≤ b)
  | "sgt" => some (b < a)
  | "sge" => some (b ≤ a)
  | _ => none

theorem compare?_eq (a b : Int) : compare? "eq" a b = some (decide (a = b)) := rfl

theorem compare?_slt (a b : Int) : compare? "slt" a b = some (decide (a < b)) := rfl

/-- The way into a value of the given type along indices. -/
def Ty.inner? : Ty → List Int → Option Int
  | _, [] => some 0
  | .array _ elem, i :: is => (elem.inner? is).map (elem.size * i + ·)
  | _, _ :: _ => none

/-- The distance that indices stand for: the first counts whole values, and the others
lead into one. -/
def Ty.distance? (type : Ty) : List Int → Option Int
  | [] => none
  | i :: is => (type.inner? is).map (type.size * i + ·)

namespace Frame

def set (f : Frame) (n : Nat) (v : Datum) : Frame :=
  { f with names := fun name => if name = (Atom.register n).text then some v else f.names name }

def eval (f : Frame) (o : Operand) : Option Datum :=
  match o.atom with
  | .int v => if o.type.isWord then some (.word (o.type.wrap v)) else none
  | .bool b => some (.bit b)
  | .floatZero => some (.word 0)
  | .null => some .null
  | .absent => none
  | .register _ | .param _ | .verbatim _ => f.names o.atom.text

def word? (f : Frame) (o : Operand) : Option Int :=
  match f.eval o with
  | some (.word v) => some v
  | _ => none

def bit? (f : Frame) (o : Operand) : Option Bool :=
  match f.eval o with
  | some (.bit b) => some b
  | _ => none

def pointer? (f : Frame) (o : Operand) : Option Pointer :=
  match f.eval o with
  | some (.pointer p) => some p
  | _ => none

/-- A computed address, which must lie in its object or at the end of it. -/
def address (f : Frame) (p : Pointer) : Datum :=
  if f.memory.Accessible p 0 then .pointer p else .poison

def exec (native : Native) (f : Frame) : Instr → Option Frame
  | .call dst callee _ args => do
    let vs ← args.mapM f.eval
    let v ← native callee vs
    let g := { f with calls := f.calls ++ [(callee, vs)] }
    return match dst with
      | some n => g.set n v
      | none => g
  | .alloca n type =>
    some (({ f with memory := f.memory.alloc type.size } : Frame).set n
      (.pointer ⟨f.memory.count, 0⟩))
  | .store value ptr => do
    let v ← f.word? value
    let p ← f.pointer? ptr
    let m ← f.memory.store value.type p v
    return { f with memory := m }
  | .load n type ptr => do
    let p ← f.pointer? ptr
    let v ← f.memory.load type p
    return f.set n (.word v)
  | .gep n elem ptr indices => do
    let p ← f.pointer? ptr
    let is ← indices.mapM f.word?
    let d ← elem.distance? is
    return f.set n (f.address (p.shift d))
  | .binary n op lhs rhs => do
    let a ← f.word? lhs
    let b ← f.word? rhs
    let v ← op.apply lhs.type a b
    return f.set n (.word v)
  | .icmp n pred lhs rhs => do
    let a ← f.word? lhs
    let b ← f.word? rhs
    let v ← compare? pred a b
    return f.set n (.bit v)
  | .select n cond ifTrue ifFalse => do
    let b ← f.bit? cond
    let v ← f.eval ifTrue
    let w ← f.eval ifFalse
    return f.set n (if b then v else w)
  | .br _ | .condBr .. | .ret _ | .label _ => none

def execAll (native : Native) : List Instr → Frame → Option Frame
  | [], f => some f
  | i :: code, f => (f.exec native i).bind (execAll native code)

end Frame

/-- A run: the code still to be run in the current block, or what was returned. -/
inductive Config where
  | running (code : List Instr) (f : Frame)
  | returned (value : Option Datum) (f : Frame)

def blockAt (target : String) : List Instr → Option (List Instr)
  | [] => none
  | i :: code => if i = .label target then some code else blockAt target code

/-- One step in a function of the given code. -/
def step? (native : Native) (whole : List Instr) : Config → Option Config
  | .running (.br target :: _) f => (blockAt target whole).map (.running · f)
  | .running (.condBr cond ifTrue ifFalse :: _) f => do
    let b ← f.bit? cond
    (blockAt (if b then ifTrue else ifFalse) whole).map (.running · f)
  | .running (.ret none :: _) f => some (.returned none f)
  | .running (.ret (some value) :: _) f => do return .returned (some (← f.eval value)) f
  | .running (i :: code) f => (f.exec native i).map (.running code)
  | .running [] _ | .returned .. => none

def Reaches (native : Native) (whole : List Instr) : Config → Config → Prop :=
  Relation.ReflTransGen fun c c' => step? native whole c = some c'

def Definition.code (d : Definition) : List Instr := d.slots.toList ++ d.body.toList

def Definition.enter (d : Definition) (args : List Datum) (memory : Memory) : Config :=
  .running d.code
    { names := fun name => ((d.params.zip args).find? fun p => p.1.atom.text == name).map Prod.snd
      memory }

/-! ### Names -/

theorem Atom.register_text_inj {n m : Nat} (h : (Atom.register n).text = (Atom.register m).text) :
    n = m :=
  Text.toString_inj (String.append_right_inj _ |>.mp h)

/-- An operand that keeps its value while registers from `k` on are defined: a literal, or
a name of another text. -/
def Operand.Before (o : Operand) (k : Nat) : Prop :=
  match o.atom with
  | .int _ | .bool _ | .floatZero | .null | .absent => True
  | .register _ | .param _ | .verbatim _ => ∀ n, k ≤ n → o.atom.text ≠ (Atom.register n).text

theorem Operand.before_register {type : Ty} {n k : Nat} (h : n < k) :
    (Operand.register type n).Before k := by
  intro m hm htext
  exact absurd (Atom.register_text_inj htext) (by omega)

theorem Operand.before_param {type : Ty} {name : String} (k : Nat)
    (h : name.toList.head? ≠ some 't') : (⟨type, .param name⟩ : Operand).Before k := by
  intro m _ htext
  have hlist := congrArg String.toList htext
  simp only [Atom.text, String.toList_append] at hlist
  have htail : name.toList = 't' :: (toString m).toList := by simpa using hlist
  rw [htail] at h
  exact h rfl

theorem Operand.Before.mono {o : Operand} {k l : Nat} (h : o.Before k) (hkl : k ≤ l) :
    o.Before l := by
  obtain ⟨type, atom⟩ := o
  cases atom with
  | int | bool | floatZero | null | absent => trivial
  | register | param | verbatim => exact fun n hn => h n (Nat.le_trans hkl hn)

namespace Frame

variable {f : Frame} {n : Nat} {v : Datum} {o : Operand}

@[simp] theorem set_memory : (f.set n v).memory = f.memory := rfl

@[simp] theorem set_calls : (f.set n v).calls = f.calls := rfl

@[simp] theorem eval_set_self {type : Ty} : (f.set n v).eval (.register type n) = some v := by
  simp [eval, set, Operand.register]

theorem eval_set {k : Nat} (ho : o.Before k) (hk : k ≤ n) : (f.set n v).eval o = f.eval o := by
  obtain ⟨type, atom⟩ := o
  cases atom with
  | int | bool | floatZero | null | absent => rfl
  | register | param | verbatim => exact if_neg (ho n hk)

theorem eval_set_of_lt {type : Ty} {m : Nat} (h : m < n) :
    (f.set n v).eval (.register type m) = f.eval (.register type m) :=
  eval_set (Operand.before_register h) (Nat.le_refl n)

theorem word?_of_eval {a : Int} (h : f.eval o = some (.word a)) : f.word? o = some a := by
  rw [word?, h]

theorem pointer?_of_eval {p : Pointer} (h : f.eval o = some (.pointer p)) :
    f.pointer? o = some p := by
  rw [pointer?, h]

theorem bit?_of_eval {b : Bool} (h : f.eval o = some (.bit b)) : f.bit? o = some b := by
  rw [bit?, h]

/-- Only registers from `n` on have been defined since. -/
structure Extends (n : Nat) (f g : Frame) : Prop where
  memory : g.memory = f.memory
  eval : ∀ {o : Operand}, o.Before n → g.eval o = f.eval o

/-- An operand stands for a value, also after registers from `n` on have been defined. -/
structure Has (f : Frame) (n : Nat) (o : Operand) (v : Datum) : Prop where
  before : o.Before n
  eval : f.eval o = some v

theorem Has.congr {g : Frame} (h : f.Has n o v) (heval : g.eval o = f.eval o) : g.Has n o v :=
  ⟨h.before, heval.trans h.eval⟩

namespace Extends

variable {g h : Frame} {m : Nat}

theorem refl (n : Nat) (f : Frame) : Extends n f f := ⟨rfl, fun _ => rfl⟩

theorem trans (hfg : Extends n f g) (hgh : Extends m g h) (hnm : n ≤ m) : Extends n f h :=
  ⟨hgh.memory.trans hfg.memory, fun ho => (hgh.eval (ho.mono hnm)).trans (hfg.eval ho)⟩

theorem set (hfg : Extends n f g) (hnm : n ≤ m) : Extends n f (g.set m v) :=
  ⟨hfg.memory, fun ho => (eval_set ho hnm).trans (hfg.eval ho)⟩

theorem call (hfg : Extends n f g) (hnm : n ≤ m) (calls : List (String × List Datum)) :
    Extends n f (({ g with calls } : Frame).set m v) :=
  ⟨hfg.memory, fun ho => (eval_set ho hnm).trans (hfg.eval ho)⟩

theorem address (hfg : Extends n f g) (p : Pointer) : g.address p = f.address p := by
  rw [Frame.address, Frame.address, hfg.memory]

theorem has (hfg : Extends n f g) (hf : f.Has n o v) : g.Has n o v :=
  hf.congr (hfg.eval hf.before)

end Extends

/-- Only registers from `n` on have been defined since, and nothing was called. The memory
may have changed. -/
structure Preserves (n : Nat) (f g : Frame) : Prop where
  eval : ∀ {o : Operand}, o.Before n → g.eval o = f.eval o
  calls : g.calls = f.calls

namespace Preserves

variable {g h : Frame} {m : Nat}

theorem refl (n : Nat) (f : Frame) : Preserves n f f := ⟨fun _ => rfl, rfl⟩

theorem trans (hfg : Preserves n f g) (hgh : Preserves m g h) (hnm : n ≤ m) : Preserves n f h :=
  ⟨fun ho => (hgh.eval (ho.mono hnm)).trans (hfg.eval ho), hgh.calls.trans hfg.calls⟩

theorem set (hfg : Preserves n f g) (hnm : n ≤ m) : Preserves n f (g.set m v) :=
  ⟨fun ho => (eval_set ho hnm).trans (hfg.eval ho), hfg.calls⟩

theorem store (hfg : Preserves n f g) (memory : Memory) : Preserves n f { g with memory } :=
  ⟨hfg.eval, hfg.calls⟩

theorem has (hfg : Preserves n f g) (hf : f.Has n o v) : g.Has n o v :=
  hf.congr (hfg.eval hf.before)

end Preserves

theorem Has.mono {m : Nat} (h : f.Has n o v) (hnm : n ≤ m) : f.Has m o v :=
  ⟨h.before.mono hnm, h.eval⟩

theorem has_set {type : Ty} : (f.set n v).Has (n + 1) (.register type n) v :=
  ⟨Operand.before_register (Nat.lt_succ_self n), eval_set_self⟩

/-! ### Instructions -/

variable {native : Native} {elem type : Ty} {ptr : Operand} {p : Pointer}

theorem exec_call {callee : String} {sig : Signature} {args : List Operand} {vs : List Datum}
    (hargs : args.mapM f.eval = some vs) (hv : native callee vs = some v) :
    f.exec native (.call (some n) callee sig args) =
      some (({ f with calls := f.calls ++ [(callee, vs)] } : Frame).set n v) := by
  simp [exec, hargs, hv]

theorem exec_store {value : Operand} {a : Int} {m : Memory} (ha : f.eval value = some (.word a))
    (hp : f.eval ptr = some (.pointer p)) (hm : f.memory.store value.type p a = some m) :
    f.exec native (.store value ptr) = some { f with memory := m } := by
  simp [exec, word?_of_eval ha, pointer?_of_eval hp, hm]

theorem exec_load {a : Int} (hp : f.eval ptr = some (.pointer p))
    (ha : f.memory.load type p = some a) :
    f.exec native (.load n type ptr) = some (f.set n (.word a)) := by
  simp [exec, pointer?_of_eval hp, ha]

theorem exec_gep {index : Operand} {i : Int} (hp : f.eval ptr = some (.pointer p))
    (hi : f.eval index = some (.word i)) :
    f.exec native (.gep n elem ptr [index]) = some (f.set n (f.address (p.cell elem i))) := by
  simp [exec, pointer?_of_eval hp, word?_of_eval hi, Ty.distance?, Ty.inner?, Pointer.cell]

theorem exec_add {lhs rhs : Operand} {a b : Int} (htype : lhs.type = type)
    (hint : type.isInt && type.isWord) (ha : f.eval lhs = some (.word a))
    (hb : f.eval rhs = some (.word b)) :
    f.exec native (.binary n .add lhs rhs) = some (f.set n (.word (type.wrap (a + b)))) := by
  simp [exec, word?_of_eval ha, word?_of_eval hb, BinaryOp.apply, htype, hint]

theorem exec_mul {lhs rhs : Operand} {a b : Int} (htype : lhs.type = type)
    (hint : type.isInt && type.isWord) (ha : f.eval lhs = some (.word a))
    (hb : f.eval rhs = some (.word b)) :
    f.exec native (.binary n .mul lhs rhs) = some (f.set n (.word (type.wrap (a * b)))) := by
  simp [exec, word?_of_eval ha, word?_of_eval hb, BinaryOp.apply, htype, hint]

theorem exec_icmp {pred : String} {lhs rhs : Operand} {a b : Int} {c : Bool}
    (ha : f.eval lhs = some (.word a)) (hb : f.eval rhs = some (.word b))
    (hc : compare? pred a b = some c) :
    f.exec native (.icmp n pred lhs rhs) = some (f.set n (.bit c)) := by
  simp [exec, word?_of_eval ha, word?_of_eval hb, hc]

theorem exec_select {cond yes no : Operand} {c : Bool} {w : Datum}
    (hc : f.eval cond = some (.bit c)) (hv : f.eval yes = some v) (hw : f.eval no = some w) :
    f.exec native (.select n cond yes no) = some (f.set n (if c then v else w)) := by
  simp [exec, bit?_of_eval hc, hv, hw]

theorem eval_i64 (f : Frame) (a : Int) : f.eval (.i64 a) = some (.word (Ty.i64.wrap a)) := rfl

theorem address_of_accessible {k : Nat} (h : f.memory.Accessible p k) :
    f.address p = .pointer p := if_pos h.zero

theorem exec_store_pointer {value : Operand} {a : Int} (ha : f.eval value = some (.word a))
    (hp : f.eval ptr = some (.pointer p)) :
    (f.exec native (.store value ptr)).map memory = f.memory.store value.type p a := by
  cases hm : f.memory.store value.type p a <;>
    simp [exec, word?_of_eval ha, pointer?_of_eval hp, hm]

/-- A store through a computed address, which fails when the address is of no use. -/
theorem exec_store_address {value : Operand} {a : Int} (ha : f.eval value = some (.word a))
    (hp : f.eval ptr = some (f.address p)) :
    (f.exec native (.store value ptr)).map memory = f.memory.store value.type p a := by
  by_cases hacc : f.memory.Accessible p 0
  · rw [address_of_accessible hacc] at hp
    exact exec_store_pointer ha hp
  · have hnone : f.memory.store value.type p a = none :=
      if_neg fun h => hacc h.2.zero
    rw [address, if_neg hacc] at hp
    simp [exec, word?_of_eval ha, pointer?, hp, hnone]

theorem exec_load_address (hp : f.eval ptr = some (f.address p)) :
    (f.exec native (.load n type ptr)).bind (·.eval (.register type n)) =
      (f.memory.load type p).map .word := by
  by_cases hacc : f.memory.Accessible p 0
  · rw [address_of_accessible hacc] at hp
    cases hm : f.memory.load type p <;> simp [exec, pointer?_of_eval hp, hm]
  · have hnone : f.memory.load type p = none :=
      if_neg fun h => hacc h.2.zero
    rw [address, if_neg hacc] at hp
    simp [exec, pointer?, hp, hnone]

@[simp] theorem execAll_nil : execAll native [] f = some f := rfl

@[simp] theorem execAll_singleton (i : Instr) (f : Frame) :
    execAll native [i] f = f.exec native i :=
  Option.bind_fun_some _

theorem execAll_cons {i : Instr} {code : List Instr} {g : Frame}
    (h : f.exec native i = some g) : execAll native (i :: code) f = execAll native code g := by
  rw [execAll, h, Option.bind_some]

theorem execAll_append (code code' : List Instr) (f : Frame) :
    execAll native (code ++ code') f = (execAll native code f).bind (execAll native code') := by
  induction code generalizing f with
  | nil => rfl
  | cons i code ih =>
      rw [List.cons_append, execAll, execAll]
      cases f.exec native i with
      | none => rfl
      | some g => exact ih g

end Frame

/-! ### Runs -/

namespace Reaches

variable {native : Native} {whole code rest : List Instr} {f g : Frame}

theorem of_execAll (h : Frame.execAll native code f = some g) :
    Reaches native whole (.running (code ++ rest) f) (.running rest g) := by
  induction code generalizing f with
  | nil =>
      cases h
      exact .refl
  | cons i code ih =>
      rw [Frame.execAll] at h
      obtain ⟨f', hf', h⟩ := Option.bind_eq_some_iff.mp h
      have hstep : step? native whole (.running (i :: (code ++ rest)) f) =
          some (.running (code ++ rest) f') := by
        cases i with
        | br | condBr | ret | label => cases hf'
        | _ => exact congrArg (Option.map _) hf'
      exact .head hstep (ih h)

theorem br {target : String} (h : blockAt target whole = some code) :
    Reaches native whole (.running (.br target :: rest) f) (.running code f) :=
  .single (by simp [step?, h])

theorem condBr {cond : Operand} {yes no : String} {b : Bool} (hb : f.eval cond = some (.bit b))
    (h : blockAt (if b then yes else no) whole = some code) :
    Reaches native whole (.running (.condBr cond yes no :: rest) f) (.running code f) :=
  .single (by simp [step?, Frame.bit?_of_eval hb, h])

theorem ret {value : Operand} {v : Datum} (hv : f.eval value = some v) :
    Reaches native whole (.running (.ret (some value) :: rest) f) (.returned (some v) f) :=
  .single (by simp [step?, hv])

end Reaches

end SpmdArrays.Llvm
