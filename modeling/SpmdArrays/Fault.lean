/-!
Checked machine arithmetic. A word is a range of integers; an operation on
words is the operation on integers followed by a range test, so that a result
that is returned is always the exact one. What falls outside the range is a
fault, and so is a buffer that no address space can hold.
-/

namespace SpmdArrays

/-- The ways in which machine arithmetic and allocation stop a computation. -/
inductive Fault where
  | addOverflow
  | subOverflow
  | mulOverflow
  | capacityOverflow
  deriving DecidableEq, Repr

def Fault.message : Fault → String
  | .addOverflow => "attempt to add with overflow"
  | .subOverflow => "attempt to subtract with overflow"
  | .mulOverflow => "attempt to multiply with overflow"
  | .capacityOverflow => "capacity overflow"

theorem ok_bind {ε α β : Type} (a : α) (g : α → Except ε β) : (Except.ok a >>= g) = g a := rfl

theorem exists_of_bind_ok {ε α β : Type} {x : Except ε α} {g : α → Except ε β} {b : β}
    (h : (x >>= g) = .ok b) : ∃ a, x = .ok a ∧ g a = .ok b := by
  cases x with
  | error e => cases h
  | ok a => exact ⟨a, rfl, h⟩

theorem mapError_ok {ε ε' α : Type} (a : α) (g : ε → ε') :
    (Except.ok a : Except ε α).mapError g = .ok a := rfl

/-- A machine word, given by its least and its greatest value. -/
structure Word where
  lo : Int
  hi : Int
  deriving DecidableEq, Repr

namespace Word

def signed (bits : Nat) : Word := ⟨-Int.pow 2 (bits - 1), Int.pow 2 (bits - 1) - 1⟩

def unsigned (bits : Nat) : Word := ⟨0, Int.pow 2 bits - 1⟩

abbrev i64 : Word := signed 64

abbrev u64 : Word := unsigned 64

def Fits (w : Word) (v : Int) : Prop := w.lo ≤ v ∧ v ≤ w.hi

instance (w : Word) (v : Int) : Decidable (w.Fits v) := by
  unfold Fits; infer_instance

/-- The value itself when it fits, the given fault otherwise. -/
def check (w : Word) (fault : Fault) (v : Int) : Except Fault Int :=
  if w.Fits v then .ok v else .error fault

def add (w : Word) (a b : Int) : Except Fault Int := w.check .addOverflow (a + b)

def sub (w : Word) (a b : Int) : Except Fault Int := w.check .subOverflow (a - b)

def mul (w : Word) (a b : Int) : Except Fault Int := w.check .mulOverflow (a * b)

/-- The product from left to right, starting at one. A fault at some factor is
final even when a later factor is zero. -/
def product (w : Word) (factors : List Int) : Except Fault Int :=
  factors.foldlM w.mul 1

theorem check_eq_ok_iff {w : Word} {fault : Fault} {v r : Int} :
    w.check fault v = .ok r ↔ w.Fits v ∧ r = v := by
  unfold check
  split <;> simp_all [eq_comm]

theorem fits_i64 {v : Int} :
    i64.Fits v ↔ -9223372036854775808 ≤ v ∧ v ≤ 9223372036854775807 := Iff.rfl

theorem fits_u64 {v : Int} : u64.Fits v ↔ 0 ≤ v ∧ v ≤ 18446744073709551615 := Iff.rfl

theorem add_of_fits {w : Word} {a b : Int} (h : w.Fits (a + b)) : w.add a b = .ok (a + b) :=
  if_pos h

theorem sub_of_fits {w : Word} {a b : Int} (h : w.Fits (a - b)) : w.sub a b = .ok (a - b) :=
  if_pos h

theorem mul_of_fits {w : Word} {a b : Int} (h : w.Fits (a * b)) : w.mul a b = .ok (a * b) :=
  if_pos h

@[simp] theorem product_nil (w : Word) : w.product [] = .ok 1 := rfl

/-- Reads a value of any size as a signed word of the given width. -/
def wrapSigned (bits : Nat) (v : Int) : Int := Int.bmod v (Nat.pow 2 bits)

end Word

/-- The greatest number of bytes that one buffer can hold. -/
def maxBytes : Int := Int.pow 2 63 - 1

theorem maxBytes_eq : maxBytes = 9223372036854775807 := rfl

/-- Refuses a buffer of more elements, of the given width in bytes, than fit in
the address space. -/
def reserve (width : Nat) (elements : Int) : Except Fault Unit :=
  if elements * width ≤ maxBytes then .ok () else .error .capacityOverflow

/-- Why a computation ended before its time: an error of its own, or a fault. -/
inductive Stop (ε : Type) where
  | failed (e : ε)
  | fault (f : Fault)
  deriving DecidableEq, Repr

end SpmdArrays
