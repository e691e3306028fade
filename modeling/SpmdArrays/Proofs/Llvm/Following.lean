import SpmdArrays.Proofs.Llvm.Building

/-!
What computations do to a session, for any relation between the session before and the
session after. A relation that holds of every single operation on the open function, and
of one operation behind another, holds of every computation that is put together from
them, whether it gives a result or fails on the way.
-/

namespace SpmdArrays.Llvm

def Instr.isCall : Instr → Bool
  | .call .. => true
  | _ => false

namespace Emit

variable {ε α β : Type}

def final : EStateM.Result ε Session α → Session
  | .ok _ t | .error _ t => t

/-- Whatever the computation does to a session is in the relation. -/
structure Follows (R : Session → Session → Prop) (x : Emit ε α) : Prop where
  step : ∀ s, R s (final (x s))

/-- The relation holds of each operation on the open function, and along operations. -/
class Composes (R : Session → Session → Prop) : Prop where
  refl : ∀ s, R s s
  trans : ∀ {s t u}, R s t → R t u → R s u
  emit : ∀ s {i : Instr}, i.isCall = false →
    i.dst? = none ∨ i.dst? = some s.draft.nextRegister → R s (s.adding [] [i])
  slot : ∀ s type, R s (s.adding [.alloca s.draft.nextRegister type] [])
  /-- A call of a symbol that was declared for it. -/
  call : ∀ s {m callee sig dst} args, s.module.declare callee sig = .ok m →
    dst = (if sig.ret = .void then none else some s.draft.nextRegister) →
    R s ((s.on m).adding [] [.call dst callee sig args])

variable {R : Session → Session → Prop} [Composes R]

theorem follows_pure (a : α) : Follows R (pure a : Emit ε α) := ⟨Composes.refl⟩

theorem Follows.bind {x : Emit ε α} {g : α → Emit ε β} (hx : Follows R x)
    (hg : ∀ a, Follows R (g a)) : Follows R (x >>= g) := by
  refine ⟨fun s => ?_⟩
  have hs := hx.step s
  rw [bind_apply]
  cases hr : x s with
  | error e u =>
      rw [hr] at hs
      exact hs
  | ok a u =>
      rw [hr] at hs
      exact Composes.trans hs ((hg a).step u)

theorem follows_run {i : Instr} (hdst : i.dst? = none) (hcall : i.isCall = false) :
    Follows R (run i : Emit ε Unit) := by
  refine ⟨fun s => ?_⟩
  rw [run_eq hdst]
  exact Composes.emit s hcall (.inl hdst)

theorem follows_define {type : Ty} {i : Nat → Instr} (hdst : ∀ n, (i n).dst? = some n)
    (hcall : ∀ n, (i n).isCall = false) : Follows R (define type i : Emit ε Operand) := by
  refine ⟨fun s => ?_⟩
  rw [define_eq hdst]
  exact Composes.emit s (hcall _) (.inr (hdst _))

theorem follows_alloca (type : Ty) : Follows R (alloca type : Emit ε Operand) := by
  refine ⟨fun s => ?_⟩
  rw [alloca_eq]
  exact Composes.slot s type

theorem follows_store (value ptr : Operand) : Follows R (store value ptr : Emit ε Unit) :=
  follows_run rfl rfl

theorem follows_load (type : Ty) (ptr : Operand) : Follows R (load type ptr : Emit ε Operand) :=
  follows_define (fun _ => rfl) fun _ => rfl

theorem follows_gep (elem : Ty) (ptr : Operand) (indices : List Operand) :
    Follows R (gep elem ptr indices : Emit ε Operand) :=
  follows_define (fun _ => rfl) fun _ => rfl

theorem follows_add (lhs rhs : Operand) : Follows R (add lhs rhs : Emit ε Operand) :=
  follows_define (fun _ => rfl) fun _ => rfl

theorem follows_mul (lhs rhs : Operand) : Follows R (mul lhs rhs : Emit ε Operand) :=
  follows_define (fun _ => rfl) fun _ => rfl

theorem follows_icmp (pred : String) (lhs rhs : Operand) :
    Follows R (icmp pred lhs rhs : Emit ε Operand) :=
  follows_define (fun _ => rfl) fun _ => rfl

theorem follows_select (cond ifTrue ifFalse : Operand) :
    Follows R (select cond ifTrue ifFalse : Emit ε Operand) :=
  follows_define (fun _ => rfl) fun _ => rfl

theorem follows_label (name : String) : Follows R (label name : Emit ε Unit) :=
  follows_run rfl rfl

theorem follows_br (target : String) : Follows R (br target : Emit ε Unit) :=
  follows_run rfl rfl

theorem follows_condBr (cond : Operand) (ifTrue ifFalse : String) :
    Follows R (condBr cond ifTrue ifFalse : Emit ε Unit) :=
  follows_run rfl rfl

theorem follows_ret (value : Option Operand) : Follows R (ret value : Emit ε Unit) :=
  follows_run rfl rfl

theorem follows_call (callee : String) (sig : Signature) (args : List Operand) :
    Follows R (call callee sig args) := by
  refine ⟨fun s => ?_⟩
  rw [call, bind_apply, declare_eq]
  cases hm : s.module.declare callee sig with
  | error e => exact Composes.refl s
  | ok m =>
      by_cases hvoid : sig.ret = .void
      · simp only [hvoid, if_true]
        rw [bind_of_ok (run_eq rfl _)]
        exact Composes.call s args hm (if_pos hvoid).symm
      · simp only [hvoid, if_false]
        rw [define_eq fun _ => rfl]
        exact Composes.call s args hm (if_neg hvoid).symm

end Emit

end SpmdArrays.Llvm
