import Mathlib.Algebra.Order.Ring.Int
import Mathlib.Tactic.Ring
import SpmdArrays.Fault
import SpmdArrays.Llvm.Type

/-!
The memory that code works on: objects made of bytes. Numbers are stored with their low
byte first; a floating-point number is stored as the word of its bits. An access is
defined only inside an object, and a write changes no byte but its own.
-/

namespace SpmdArrays.Llvm

namespace Ty

def size : Ty → Nat
  | .void => 0
  | .i1 | .i8 => 1
  | .i32 | .float => 4
  | .i64 | .double | .ptr => 8
  | .array n elem => n * elem.size

def isWord : Ty → Bool
  | .i8 | .i32 | .i64 | .float | .double => true
  | .void | .i1 | .ptr | .array .. => false

/-- The word of a type that a number of any size is cut down to. -/
def wrap (type : Ty) (v : Int) : Int := Word.wrapSigned (8 * type.size) v

theorem wrap_eq_bmod (type : Ty) (v : Int) : type.wrap v = Int.bmod v (256 ^ type.size) := by
  rw [wrap, Word.wrapSigned, Nat.pow_eq, Nat.pow_mul]

@[simp] theorem wrap_wrap (type : Ty) (v : Int) : type.wrap (type.wrap v) = type.wrap v := by
  simp [wrap_eq_bmod]

@[simp] theorem wrap_wrap_add (type : Ty) (v w : Int) :
    type.wrap (type.wrap v + w) = type.wrap (v + w) := by
  simp [wrap_eq_bmod]

@[simp] theorem wrap_wrap_mul (type : Ty) (v w : Int) :
    type.wrap (type.wrap v * w) = type.wrap (v * w) := by
  simp [wrap_eq_bmod]

theorem wrap_of_fits {type : Ty} {v : Int} (hpos : 0 < type.size)
    (h : (Word.signed (8 * type.size)).Fits v) : type.wrap v = v := by
  obtain ⟨b, hb⟩ : ∃ b, 8 * type.size = b + 1 := ⟨8 * type.size - 1, by omega⟩
  obtain ⟨hlo, hhi⟩ := h
  rw [hb] at hlo hhi
  change -(2 ^ b : Int) ≤ v at hlo
  change v ≤ (2 ^ b : Int) - 1 at hhi
  have hpow : ((2 ^ (b + 1) : Nat) : Int) = 2 * 2 ^ b := by push_cast; ring
  rw [wrap, Word.wrapSigned, hb, Nat.pow_eq]
  exact Int.bmod_eq_of_le (by omega) (by omega)

theorem wrap_i64_of_fits {v : Int} (h : Word.i64.Fits v) : i64.wrap v = v :=
  wrap_of_fits (by decide) h

theorem size_pos {type : Ty} (h : type.isWord) : 0 < type.size := by
  cases type <;> simp_all [isWord, size]

theorem isWord_ofElement (t : ElementType) : (ofElement t).isWord := by
  cases t <;> rfl

end Ty

/-- A place in an object. It may lie outside, as long as nothing is accessed there. -/
structure Pointer where
  object : Nat
  offset : Int
  deriving DecidableEq, Repr

namespace Pointer

def shift (p : Pointer) (d : Int) : Pointer := { p with offset := p.offset + d }

def cell (p : Pointer) (type : Ty) (i : Int) : Pointer := p.shift (type.size * i)

@[simp] theorem cell_object (p : Pointer) (type : Ty) (i : Int) :
    (p.cell type i).object = p.object := rfl

@[simp] theorem cell_offset (p : Pointer) (type : Ty) (i : Int) :
    (p.cell type i).offset = p.offset + type.size * i := rfl

theorem cell_inj {p : Pointer} {type : Ty} {i j : Int} (hpos : 0 < type.size)
    (h : p.cell type i = p.cell type j) : i = j := by
  have hoffset := congrArg offset h
  simp only [cell_offset, add_right_inj] at hoffset
  have hne : (type.size : Int) ≠ 0 := by omega
  exact Int.eq_of_mul_eq_mul_left hne hoffset

/-- Two places with the given numbers of bytes have none in common. -/
def Apart (p : Pointer) (n : Nat) (q : Pointer) (n' : Nat) : Prop :=
  p.object ≠ q.object ∨ p.offset + n ≤ q.offset ∨ q.offset + n' ≤ p.offset

theorem apart_cells {p : Pointer} {type : Ty} {i j : Int} (h : i ≠ j) :
    (p.cell type i).Apart type.size (p.cell type j) type.size := by
  refine .inr ?_
  have hstep : ∀ a b : Int, a < b → type.size * a + type.size ≤ type.size * b := fun a b hab => by
    have hmul := mul_le_mul_of_nonneg_left (Int.add_one_le_of_lt hab) (Int.natCast_nonneg type.size)
    rwa [mul_add, mul_one] at hmul
  simp only [cell_offset]
  rcases lt_or_gt_of_ne h with hlt | hlt
  · have := hstep i j hlt
    omega
  · have := hstep j i hlt
    omega

end Pointer

structure Memory where
  /-- How many objects there are. -/
  count : Nat
  /-- The bytes of each object. -/
  size : Nat → Nat
  byte : Nat → Int → UInt8

namespace Memory

/-- The given number of bytes from a place on lie in an object. -/
def Accessible (m : Memory) (p : Pointer) (n : Nat) : Prop :=
  p.object < m.count ∧ 0 ≤ p.offset ∧ p.offset + n ≤ m.size p.object

instance (m : Memory) (p : Pointer) (n : Nat) : Decidable (m.Accessible p n) := by
  unfold Accessible; infer_instance

theorem Accessible.zero {m : Memory} {p : Pointer} {n : Nat} (h : m.Accessible p n) :
    m.Accessible p 0 := by
  obtain ⟨hobject, hlo, hhi⟩ := h
  exact ⟨hobject, hlo, by omega⟩

/-- The number in the first bytes from a place on. -/
def read (m : Memory) (p : Pointer) : Nat → Nat
  | 0 => 0
  | n + 1 => m.read p n + 256 ^ n * (m.byte p.object (p.offset + n)).toNat

def byteOf (v : Nat) (i : Nat) : UInt8 := .ofNat (v / 256 ^ i % 256)

def write (m : Memory) (p : Pointer) (n : Nat) (v : Int) : Memory :=
  { m with byte := fun object offset =>
      if object = p.object ∧ p.offset ≤ offset ∧ offset < p.offset + n then
        byteOf (v % (256 ^ n : Nat)).toNat (offset - p.offset).toNat
      else m.byte object offset }

def load (m : Memory) (type : Ty) (p : Pointer) : Option Int :=
  if type.isWord ∧ m.Accessible p type.size then some (type.wrap (m.read p type.size)) else none

def store (m : Memory) (type : Ty) (p : Pointer) (v : Int) : Option Memory :=
  if type.isWord ∧ m.Accessible p type.size then some (m.write p type.size v) else none

/-- One more object, at the end. What its bytes are is left open. -/
def alloc (m : Memory) (n : Nat) : Memory :=
  { m with
    count := m.count + 1
    size := fun object => if object = m.count then n else m.size object }

/-! ### Reading what was written -/

theorem toNat_byteOf (v i : Nat) : (byteOf v i).toNat = v / 256 ^ i % 256 := by
  simp [byteOf]

theorem read_eq_of_bytes {m : Memory} {p : Pointer} {v n : Nat}
    (h : ∀ i < n, m.byte p.object (p.offset + i) = byteOf v i) : m.read p n = v % 256 ^ n := by
  induction n with
  | zero => simp [read, Nat.mod_one]
  | succ n ih =>
      rw [read, ih fun i hi => h i (by omega), h n (by omega), toNat_byteOf, Nat.mod_pow_succ]

theorem read_congr {m m' : Memory} {p : Pointer} {n : Nat}
    (h : ∀ i < n, m'.byte p.object (p.offset + i) = m.byte p.object (p.offset + i)) :
    m'.read p n = m.read p n := by
  induction n with
  | zero => rfl
  | succ n ih => rw [read, read, ih fun i hi => h i (by omega), h n (by omega)]

theorem read_write (m : Memory) (p : Pointer) (n : Nat) (v : Int) :
    (m.write p n v).read p n = (v % (256 ^ n : Nat)).toNat := by
  have hpos : (0 : Int) < (256 ^ n : Nat) := by exact_mod_cast Nat.pow_pos (by decide)
  have hlt : (v % (256 ^ n : Nat)).toNat < 256 ^ n := by
    have := Int.emod_lt_of_pos v hpos
    have := Int.emod_nonneg v (ne_of_gt hpos)
    omega
  rw [← Nat.mod_eq_of_lt hlt]
  refine read_eq_of_bytes fun i hi => ?_
  have hin : p.offset ≤ p.offset + i ∧ p.offset + i < p.offset + n := by omega
  simp [write, hin]

theorem read_write_apart (m : Memory) {p q : Pointer} {n n' : Nat} (v : Int)
    (h : p.Apart n q n') : (m.write p n v).read q n' = m.read q n' := by
  refine read_congr fun i hi => if_neg ?_
  rintro ⟨hobject, hlo, hhi⟩
  rcases h with h | h | h
  · exact h hobject.symm
  · omega
  · omega

@[simp] theorem accessible_write {m : Memory} {p q : Pointer} {n n' : Nat} {v : Int} :
    (m.write p n v).Accessible q n' ↔ m.Accessible q n' := Iff.rfl

section

variable {m m' : Memory} {type type' : Ty} {p q : Pointer} {v w : Int}

theorem load_eq_some :
    m.load type p = some v ↔ type.isWord ∧ m.Accessible p type.size ∧
      type.wrap (m.read p type.size) = v := by
  simp [load, and_assoc]

theorem store_eq_some :
    m.store type p v = some m' ↔ type.isWord ∧ m.Accessible p type.size ∧
      m.write p type.size v = m' := by
  simp [store, and_assoc]

theorem exists_store (hword : type.isWord) (hp : m.Accessible p type.size) (v : Int) :
    ∃ m', m.store type p v = some m' :=
  ⟨_, store_eq_some.mpr ⟨hword, hp, rfl⟩⟩

theorem load_store (h : m.store type p v = some m') : m'.load type p = some (type.wrap v) := by
  obtain ⟨hword, hacc, rfl⟩ := store_eq_some.mp h
  refine load_eq_some.mpr ⟨hword, accessible_write.mpr hacc, ?_⟩
  have hpos : (0 : Int) < (256 ^ type.size : Nat) := by exact_mod_cast Nat.pow_pos (by decide)
  rw [read_write, Int.toNat_of_nonneg (Int.emod_nonneg v (ne_of_gt hpos)), Ty.wrap_eq_bmod,
    Ty.wrap_eq_bmod, Int.emod_bmod]

theorem load_store_apart (h : m.store type p v = some m') (hapart : p.Apart type.size q type'.size)
    (hload : m.load type' q = some w) : m'.load type' q = some w := by
  obtain ⟨-, -, rfl⟩ := store_eq_some.mp h
  obtain ⟨hword, hacc, rfl⟩ := load_eq_some.mp hload
  exact load_eq_some.mpr ⟨hword, accessible_write.mpr hacc, by rw [read_write_apart m v hapart]⟩

end

/-! ### What stays as it was -/

/-- The memory after some work: the objects are still there, and outside of a region no
byte of them has changed. -/
structure Agree (region : Nat → Int → Prop) (m m' : Memory) : Prop where
  count : m.count ≤ m'.count
  size : ∀ object < m.count, m'.size object = m.size object
  byte : ∀ object < m.count, ∀ offset, ¬ region object offset →
    m'.byte object offset = m.byte object offset

namespace Agree

variable {region : Nat → Int → Prop} {m m₁ m₂ : Memory} {type : Ty} {p : Pointer} {v : Int}

theorem refl (region : Nat → Int → Prop) (m : Memory) : Agree region m m :=
  ⟨Nat.le_refl _, fun _ _ => rfl, fun _ _ _ _ => rfl⟩

theorem alloc (h : Agree region m m₁) (n : Nat) : Agree region m (m₁.alloc n) where
  count := Nat.le_succ_of_le h.count
  size object hobject := by
    have hne : object ≠ m₁.count := Nat.ne_of_lt (Nat.lt_of_lt_of_le hobject h.count)
    simpa [Memory.alloc, hne] using h.size object hobject
  byte := h.byte

theorem store (h : Agree region m m₁) (hstore : m₁.store type p v = some m₂)
    (hp : p.object < m.count →
      ∀ offset, p.offset ≤ offset → offset < p.offset + type.size → region p.object offset) :
    Agree region m m₂ := by
  obtain ⟨-, -, rfl⟩ := store_eq_some.mp hstore
  refine ⟨h.count, h.size, fun object hobject offset hout => ?_⟩
  refine (if_neg ?_).trans (h.byte object hobject offset hout)
  rintro ⟨rfl, hlo, hhi⟩
  exact hout (hp hobject offset hlo hhi)

theorem accessible (h : Agree region m m₁) {n : Nat} (hp : m.Accessible p n) :
    m₁.Accessible p n := by
  obtain ⟨hobject, hlo, hhi⟩ := hp
  exact ⟨Nat.lt_of_lt_of_le hobject h.count, hlo, by rwa [h.size _ hobject]⟩

theorem load (h : Agree region m m₁) (hload : m.load type p = some v)
    (hout : ∀ offset, p.offset ≤ offset → offset < p.offset + type.size →
      ¬ region p.object offset) : m₁.load type p = some v := by
  obtain ⟨hword, hacc, rfl⟩ := load_eq_some.mp hload
  refine load_eq_some.mpr ⟨hword, h.accessible hacc, ?_⟩
  rw [read_congr fun i hi => h.byte _ hacc.1 _ (hout _ (by omega) (by omega))]

end Agree

/-! ### Arrays -/

/-- An array of words of one type. -/
def Holds (m : Memory) (type : Ty) (p : Pointer) (xs : List Int) : Prop :=
  ∀ (i : Nat) (x : Int), xs[i]? = some x → m.load type (p.cell type i) = some x

instance (m : Memory) (type : Ty) (p : Pointer) (xs : List Int) : Decidable (m.Holds type p xs) :=
  decidable_of_iff (∀ i : Fin xs.length, m.load type (p.cell type i) = some (xs.get i)) <| by
    refine ⟨fun h i x hx => ?_, fun h i => h i _ (List.getElem?_eq_getElem i.isLt)⟩
    obtain ⟨hi, rfl⟩ := List.getElem?_eq_some_iff.mp hx
    exact h ⟨i, hi⟩

namespace Holds

variable {m m' : Memory} {type : Ty} {p q : Pointer} {xs : List Int} {v : Int}

theorem store (h : m.Holds type p xs) {i : Nat}
    (hstore : m.store type (p.cell type i) v = some m') :
    m'.Holds type p (xs.set i (type.wrap v)) := by
  intro j x hx
  rw [List.getElem?_set] at hx
  split at hx
  · rename_i hij
    subst hij
    split at hx
    · cases hx
      exact load_store hstore
    · cases hx
  · rename_i hij
    exact load_store_apart hstore (Pointer.apart_cells (by exact_mod_cast hij)) (h j x hx)

theorem store_apart (h : m.Holds type p xs) (hstore : m.store type q v = some m')
    (hapart : ∀ i < xs.length, q.Apart type.size (p.cell type i) type.size) :
    m'.Holds type p xs := by
  intro i x hx
  exact load_store_apart hstore (hapart i (List.getElem?_eq_some_iff.mp hx).1) (h i x hx)

theorem exists_store (h : m.Holds type p xs) (i : Nat) (hi : i < xs.length) (v : Int) :
    ∃ m', m.store type (p.cell type i) v = some m' := by
  obtain ⟨hword, hacc, -⟩ := load_eq_some.mp (h i _ (List.getElem?_eq_getElem hi))
  exact Memory.exists_store hword hacc v

theorem append (h : m.Holds type p xs) {ys : List Int}
    (hys : ∀ (i : Nat) (y : Int), ys[i]? = some y →
      m.load type (p.cell type (xs.length + i : Nat)) = some y) : m.Holds type p (xs ++ ys) := by
  intro i x hx
  by_cases hi : i < xs.length
  · rw [List.getElem?_append_left hi] at hx
    exact h i x hx
  · rw [List.getElem?_append_right (by omega)] at hx
    have hload := hys _ x hx
    rwa [Nat.add_sub_cancel' (by omega)] at hload

end Holds

def arrayBytes (type : Ty) (p : Pointer) (n : Nat) (object : Nat) (offset : Int) : Prop :=
  object = p.object ∧ p.offset ≤ offset ∧ offset < p.offset + type.size * n

/-- Behind an array that is worked on, its neighbours stay. -/
theorem Agree.load_behind {type : Ty} {p : Pointer} {n i : Nat} {m m' : Memory} {v : Int}
    (h : Agree (arrayBytes type p n) m m') (hi : n ≤ i)
    (hload : m.load type (p.cell type i) = some v) : m'.load type (p.cell type i) = some v := by
  refine h.load hload fun offset hlo _ hin => ?_
  have hle : (type.size : Int) * n ≤ type.size * i :=
    mul_le_mul_of_nonneg_left (by omega) (Int.natCast_nonneg _)
  rw [Pointer.cell_offset] at hlo
  have hlt := hin.2.2
  omega

end Memory

end SpmdArrays.Llvm
