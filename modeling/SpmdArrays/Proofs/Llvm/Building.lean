import SpmdArrays.Llvm.Session

/-!
Building code, in closed form. Every emitter adds instructions to the open function
and takes one register for each result; `Session.adding` is the session after that,
so that an emitter is an equation and a longer computation adds what its parts add.
The one thing an emitter does to the module is to declare the symbol it calls, and a
declaration never takes a signature back.
-/

namespace SpmdArrays.Llvm

def defined (code : List Instr) : List Nat := code.filterMap Instr.dst?

@[simp] theorem defined_nil : defined [] = [] := rfl

@[simp] theorem defined_cons (i : Instr) (code : List Instr) :
    defined (i :: code) = i.dst?.toList ++ defined code := by
  cases h : i.dst? <;> simp [defined, h]

@[simp] theorem defined_append (code code' : List Instr) :
    defined (code ++ code') = defined code ++ defined code' :=
  List.filterMap_append

namespace Session

/-- The session after slots and instructions were added to the open function. Every
result has taken a register. -/
def adding (s : Session) (slots body : List Instr) : Session :=
  { s with
    draft.definition.slots := s.draft.definition.slots ++ slots
    draft.definition.body := s.draft.definition.body ++ body
    draft.nextRegister := s.draft.nextRegister + (defined (slots ++ body)).length }

variable (s : Session) (slots body : List Instr)

@[simp] theorem adding_module : (s.adding slots body).module = s.module := rfl

@[simp] theorem adding_nextRegister :
    (s.adding slots body).draft.nextRegister =
      s.draft.nextRegister + (defined (slots ++ body)).length := rfl

@[simp] theorem adding_slots :
    (s.adding slots body).draft.definition.slots.toList =
      s.draft.definition.slots.toList ++ slots := by
  simp [adding]

@[simp] theorem adding_body :
    (s.adding slots body).draft.definition.body.toList =
      s.draft.definition.body.toList ++ body := by
  simp [adding]

@[simp] theorem adding_nil : s.adding [] [] = s := by
  simp [adding]

@[simp] theorem adding_adding (slots' body' : List Instr) :
    (s.adding slots body).adding slots' body' = s.adding (slots ++ slots') (body ++ body') := by
  have hcount : s.draft.nextRegister + (defined (slots ++ body)).length +
      (defined (slots' ++ body')).length =
        s.draft.nextRegister + (defined (slots ++ slots' ++ (body ++ body'))).length := by
    simp
    omega
  have happend : ∀ (is : Array Instr) (a b : List Instr), is ++ a ++ b = is ++ (a ++ b) :=
    fun is a b => Array.toList_inj.mp (by simp)
  simp only [adding, hcount, happend]

def on (s : Session) (m : Module) : Session := { s with module := m }

@[simp] theorem on_module (m : Module) : (s.on m).module = m := rfl

@[simp] theorem on_draft (m : Module) : (s.on m).draft = s.draft := rfl

@[simp] theorem adding_on (m : Module) :
    (s.adding slots body).on m = (s.on m).adding slots body := rfl

@[simp] theorem on_adding_draft (m : Module) :
    ((s.on m).adding slots body).draft = (s.adding slots body).draft := rfl

@[simp] theorem on_on (m m' : Module) : (s.on m).on m' = s.on m' := rfl

end Session

/-! ### Declarations -/

namespace Module

variable {m m' : Module} {name : String} {sig : Signature}

theorem signature?_push (m : Module) (name : String) (sig : Signature) (other : String) :
    ({ m with symbols := m.symbols.push (name, sig) } : Module).signature? other =
      (m.signature? other).or (if other = name then some sig else none) := by
  simp only [signature?, Array.find?_push]
  cases hfind : m.symbols.find? fun s => s.1 == other with
  | some s => simp
  | none =>
      by_cases hname : other = name
      · subst hname
        simp
      · have hne : ¬ name = other := fun h => hname h.symm
        simp [hname, hne]

/-- A declaration that is accepted: the symbol has the signature already, or it was not
known and is added. -/
theorem declare_ok (h : m.declare name sig = .ok m') :
    (m.signature? name = some sig ∧ m' = m) ∨
      (m.signature? name = none ∧ m' = { m with symbols := m.symbols.push (name, sig) }) := by
  unfold declare at h
  cases hsig : m.signature? name with
  | none =>
      rw [hsig] at h
      cases h
      exact .inr ⟨rfl, rfl⟩
  | some existing =>
      rw [hsig] at h
      dsimp only at h
      split at h
      · rename_i heq
        cases h
        exact .inl ⟨by rw [heq], rfl⟩
      · cases h

theorem declare_of_signature? (h : m.signature? name = some sig) : m.declare name sig = .ok m := by
  simp [declare, h]

theorem signature?_of_declare (h : m.declare name sig = .ok m') :
    m'.signature? name = some sig := by
  rcases declare_ok h with ⟨hsig, rfl⟩ | ⟨hnone, rfl⟩
  · exact hsig
  · simp [signature?_push, hnone]

/-- A module that knows all the other one knows, under the same signatures. -/
structure Knows (m' m : Module) : Prop where
  signature : ∀ {name sig}, m.signature? name = some sig → m'.signature? name = some sig

theorem Knows.refl (m : Module) : m.Knows m := ⟨id⟩

theorem Knows.trans {m'' : Module} (h : m''.Knows m') (h' : m'.Knows m) : m''.Knows m :=
  ⟨fun hsig => h.signature (h'.signature hsig)⟩

theorem knows_of_declare (h : m.declare name sig = .ok m') : m'.Knows m := by
  refine ⟨fun {other} _ hother => ?_⟩
  rcases declare_ok h with ⟨-, rfl⟩ | ⟨-, rfl⟩
  · exact hother
  · rw [signature?_push, hother, Option.some_or]

theorem definitions_of_declare (h : m.declare name sig = .ok m') :
    m'.definitions = m.definitions := by
  rcases declare_ok h with ⟨-, rfl⟩ | ⟨-, rfl⟩ <;> rfl

theorem define_ok {d : Definition} (h : m.define d = (.ok (), m')) :
    ∃ m₁, m.declare d.name d.sig = .ok m₁ ∧ m₁.isDefined d.name = false ∧
      m' = { m₁ with definitions := m₁.definitions.push d } := by
  unfold define at h
  cases hm : m.declare d.name d.sig with
  | error e =>
      rw [hm] at h
      cases h
  | ok m₁ =>
      rw [hm] at h
      dsimp only at h
      split at h
      · cases h
      · rename_i hdefined
        cases h
        exact ⟨m₁, rfl, by simpa using hdefined, rfl⟩

end Module

/-! ### Computations, one operation at a time -/

namespace Emit

variable {ε α β : Type}

theorem pure_apply (a : α) (s : Session) : (pure a : Emit ε α) s = .ok a s := rfl

theorem bind_apply (x : Emit ε α) (g : α → Emit ε β) (s : Session) :
    (x >>= g) s =
      match x s with
      | .ok a t => g a t
      | .error e t => .error e t := by
  simp only [bind, EStateM.bind]
  cases x s <;> rfl

theorem bind_of_ok {x : Emit ε α} {g : α → Emit ε β} {s t : Session} {a : α}
    (h : x s = .ok a t) : (x >>= g) s = g a t := by
  rw [bind_apply, h]

theorem bind_eq_ok {x : Emit ε α} {g : α → Emit ε β} {s t : Session} {b : β}
    (h : (x >>= g) s = .ok b t) : ∃ a u, x s = .ok a u ∧ g a u = .ok b t := by
  rw [bind_apply] at h
  cases hx : x s with
  | error e u =>
      rw [hx] at h
      cases h
  | ok a u =>
      rw [hx] at h
      exact ⟨a, u, rfl, h⟩

def succeeds (x : Emit ε α) (s : Session) : Bool :=
  match x s with
  | .ok .. => true
  | .error .. => false

theorem exists_of_succeeds {x : Emit ε α} {s : Session} (h : x.succeeds s) :
    ∃ a t, x s = .ok a t := by
  unfold succeeds at h
  split at h
  · exact ⟨_, _, ‹_›⟩
  · cases h

theorem run_eq {i : Instr} (hdst : i.dst? = none) (s : Session) :
    (run i : Emit ε Unit) s = .ok () (s.adding [] [i]) := by
  simp [run, Session.adding, Session.push, hdst]

theorem define_eq {type : Ty} {i : Nat → Instr} (hdst : ∀ n, (i n).dst? = some n) (s : Session) :
    (define type i : Emit ε Operand) s =
      .ok (.register type s.draft.nextRegister) (s.adding [] [i s.draft.nextRegister]) := by
  simp [define, Session.adding, Session.push, Session.takeRegister, hdst]

theorem alloca_eq (type : Ty) (s : Session) :
    (alloca type : Emit ε Operand) s =
      .ok (.register .ptr s.draft.nextRegister)
        (s.adding [.alloca s.draft.nextRegister type] []) := by
  simp [alloca, Session.adding, Session.pushSlot, Session.takeRegister, Instr.dst?]

theorem store_eq (value ptr : Operand) (s : Session) :
    (store value ptr : Emit ε Unit) s = .ok () (s.adding [] [.store value ptr]) :=
  run_eq rfl s

theorem load_eq (type : Ty) (ptr : Operand) (s : Session) :
    (load type ptr : Emit ε Operand) s =
      .ok (.register type s.draft.nextRegister)
        (s.adding [] [.load s.draft.nextRegister type ptr]) :=
  define_eq (fun _ => rfl) s

theorem gep_eq (elem : Ty) (ptr : Operand) (indices : List Operand) (s : Session) :
    (gep elem ptr indices : Emit ε Operand) s =
      .ok (.register .ptr s.draft.nextRegister)
        (s.adding [] [.gep s.draft.nextRegister elem ptr indices]) :=
  define_eq (fun _ => rfl) s

theorem add_eq (lhs rhs : Operand) (s : Session) :
    (add lhs rhs : Emit ε Operand) s =
      .ok (.register lhs.type s.draft.nextRegister)
        (s.adding [] [.binary s.draft.nextRegister (.addOf lhs.type) lhs rhs]) :=
  define_eq (fun _ => rfl) s

theorem mul_eq (lhs rhs : Operand) (s : Session) :
    (mul lhs rhs : Emit ε Operand) s =
      .ok (.register lhs.type s.draft.nextRegister)
        (s.adding [] [.binary s.draft.nextRegister (.mulOf lhs.type) lhs rhs]) :=
  define_eq (fun _ => rfl) s

theorem icmp_eq (pred : String) (lhs rhs : Operand) (s : Session) :
    (icmp pred lhs rhs : Emit ε Operand) s =
      .ok (.register .i1 s.draft.nextRegister)
        (s.adding [] [.icmp s.draft.nextRegister pred lhs rhs]) :=
  define_eq (fun _ => rfl) s

theorem select_eq (cond ifTrue ifFalse : Operand) (s : Session) :
    (select cond ifTrue ifFalse : Emit ε Operand) s =
      .ok (.register ifTrue.type s.draft.nextRegister)
        (s.adding [] [.select s.draft.nextRegister cond ifTrue ifFalse]) :=
  define_eq (fun _ => rfl) s

theorem declare_eq (name : String) (sig : Signature) (s : Session) :
    declare name sig s =
      match s.module.declare name sig with
      | .ok m => .ok () (s.on m)
      | .error e => .error e s := rfl

theorem call_eq {callee : String} {sig : Signature} (hret : sig.ret ≠ .void) (args : List Operand)
    (s : Session) :
    call callee sig args s =
      match s.module.declare callee sig with
      | .ok m => .ok (.register sig.ret s.draft.nextRegister)
          ((s.on m).adding [] [.call (some s.draft.nextRegister) callee sig args])
      | .error e => .error e s := by
  rw [call, bind_apply, declare_eq]
  cases s.module.declare callee sig with
  | error e => rfl
  | ok m =>
      simp only [hret, if_false]
      exact define_eq (fun _ => rfl) _

theorem finish_eq_ok {s t : Session} (h : finish s = .ok () t) :
    ∃ m, s.module.declare s.draft.definition.name s.draft.definition.sig = .ok m ∧
      m.isDefined s.draft.definition.name = false ∧
      t = s.on { m with definitions := m.definitions.push s.draft.definition } := by
  unfold finish at h
  split at h
  · rename_i m hm
    cases h
    obtain ⟨m₁, hdeclare, hdefined, rfl⟩ := Module.define_ok hm
    exact ⟨m₁, hdeclare, hdefined, rfl⟩
  · cases h

end Emit

end SpmdArrays.Llvm
