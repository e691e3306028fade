import Mathlib.Algebra.BigOperators.Group.List.Basic
import Mathlib.Data.List.Forall2
import Mathlib.Tactic.Linarith
import Mathlib.Tactic.Ring
import SpmdArrays.Proofs.Llvm.Machine
import SpmdArrays.Proofs.Lowering.Emission
import SpmdArrays.Proofs.Spmd.ChunkWrites

/-!
Where lowered code finds an element. The offset is computed one dimension after the
other, by scaling what there is and adding the next index; the address it gives is that of
the row-major layout. In a distributed array a row of another process is answered with
minus one, which goes through the same arithmetic and is discarded at the end; what is
left is a write to the cell that the chunk of this process has for the element, or to the
dummy slot when the chunk drops the write.
-/

namespace SpmdArrays.Lowering

open Llvm (Ty Operand Instr Session Frame Datum Native Memory Pointer)

/-! ### The row-major layout -/

/-- The position of an element: the sum over all dimensions of the index times the
product of the extents behind it. The extent of the first dimension does not matter. -/
def rowMajor (indices extents : List Int) : Int :=
  ((List.range indices.length).map fun d => indices.getD d 0 * (extents.drop d).prod).sum

@[simp] theorem rowMajor_nil (extents : List Int) : rowMajor [] extents = 0 := rfl

theorem rowMajor_cons (i : Int) (is es : List Int) :
    rowMajor (i :: is) es = i * es.prod + rowMajor is es.tail := by
  simp [rowMajor, List.range_succ_eq_map, Function.comp_def]

abbrev InRange : List Int → List Int → Prop := List.Forall₂ fun i e => 0 ≤ i ∧ i < e

theorem InRange.prod_pos {is es : List Int} (h : InRange is es) : 0 < es.prod := by
  induction h with
  | nil => simp
  | cons hi _ ih =>
      rw [List.prod_cons]
      exact mul_pos (by omega) ih

theorem InRange.rowMajor_bounds {is es : List Int} (h : InRange is es) :
    0 ≤ rowMajor is es.tail ∧ rowMajor is es.tail < es.prod := by
  induction h with
  | nil => simp
  | @cons i e is es hi hrest ih =>
      have hpos := InRange.prod_pos hrest
      rw [List.tail_cons, rowMajor_cons, List.prod_cons]
      constructor <;> nlinarith

/-- No two elements have the same position. -/
theorem InRange.rowMajor_inj {is is' es : List Int} (h : InRange is es) (h' : InRange is' es)
    (heq : rowMajor is es.tail = rowMajor is' es.tail) : is = is' := by
  induction h generalizing is' with
  | nil =>
      cases h'
      rfl
  | @cons i e is es hi hrest ih =>
      obtain ⟨i', is', hi', hrest', rfl⟩ : ∃ i' is'', (0 ≤ i' ∧ i' < e) ∧ InRange is'' es ∧
          is' = i' :: is'' := by
        cases h' with
        | cons hi' hrest' => exact ⟨_, _, hi', hrest', rfl⟩
      rw [List.tail_cons, rowMajor_cons, rowMajor_cons] at heq
      obtain ⟨hlo, hhi⟩ := InRange.rowMajor_bounds hrest
      obtain ⟨hlo', hhi'⟩ := InRange.rowMajor_bounds hrest'
      have hfirst : i = i' := by
        rcases lt_trichotomy i i' with hlt | rfl | hlt
        · nlinarith
        · rfl
        · nlinarith
      subst hfirst
      rw [ih hrest' (by linarith)]

/-- The position, computed from the front. -/
def horner (i : Int) (pairs : List (Int × Int)) : Int :=
  pairs.foldl (fun acc p => acc * p.2 + p.1) i

theorem horner_eq_rowMajor {js es : List Int} (h : js.length = es.length) (i : Int) :
    horner i (js.zip es) = rowMajor (i :: js) es := by
  induction es generalizing i js with
  | nil =>
      obtain rfl := List.length_eq_zero_iff.mp h
      simp [horner, rowMajor_cons]
  | cons e es ih =>
      cases js with
      | nil => cases h
      | cons j js =>
          have hstep : horner i ((j :: js).zip (e :: es)) = horner (i * e + j) (js.zip es) := rfl
          rw [hstep, ih (Nat.succ.inj h)]
          simp only [rowMajor_cons, List.prod_cons, List.tail_cons]
          ring

/-! ### Computing an address -/

/-- What the operands of an element stand for while registers from `k` on are defined. Of
the extents only those behind the first matter, and their indices lie within them. -/
structure Element (f : Frame) (k : Nat) (a : ArrayOperand) (indices : List Operand) where
  base : Pointer
  row : Int
  /-- The further indices. -/
  columns : List Int
  /-- The further extents. -/
  extents : List Int
  hasBase : f.Has k a.data (.pointer base)
  hasIndices : List.Forall₂ (fun o v => f.Has k o (.word v)) indices (row :: columns)
  hasExtents : List.Forall₂ (fun o v => f.Has k o (.word v)) a.shape.tail extents
  fits : Word.i64.Fits row
  inRange : InRange columns extents

namespace Element

variable {f : Frame} {k : Nat} {a : ArrayOperand} {indices : List Operand}

def position (e : Element f k a indices) (row : Int) : Int := rowMajor (row :: e.columns) e.extents

def address (e : Element f k a indices) (row : Int) : Pointer :=
  e.base.cell a.elemType (e.position row)

theorem position_eq (e : Element f k a indices) (row : Int) :
    e.position row = row * e.extents.prod + rowMajor e.columns e.extents.tail :=
  rowMajor_cons ..

/-- The elements of the first rows come before those of the others. -/
theorem position_bounds (e : Element f k a indices) {row rows : Int} (hrow : 0 ≤ row)
    (hrows : row < rows) : 0 ≤ e.position row ∧ e.position row < rows * e.extents.prod := by
  have hpos := InRange.prod_pos e.inRange
  obtain ⟨hlo, hhi⟩ := InRange.rowMajor_bounds e.inRange
  rw [position_eq]
  constructor <;> nlinarith

theorem position_fits (e : Element f k a indices) {row rows : Int} (hrow : 0 ≤ row)
    (hrows : row < rows) (hroom : Word.i64.Fits (rows * e.extents.prod)) :
    Word.i64.Fits (e.position row) := by
  obtain ⟨hlo, hhi⟩ := e.position_bounds hrow hrows
  rw [Word.fits_i64] at hroom ⊢
  omega

end Element

section

variable {native : Native} {f : Frame} {n : Nat} {a : ArrayOperand} {first : Operand}
  {rest : List Operand} {p : Pointer} {i : Int} {columns extents : List Int}

/-- The code of an offset leaves it in the last register. -/
theorem exec_offsetCode {pairs : List (Operand × Operand)} {values : List (Int × Int)}
    (htype : first.type = .i64) (hfirst : f.Has n first (.word (Ty.i64.wrap i)))
    (hpairs : List.Forall₂ (fun o v => f.Has n o.1 (.word v.1) ∧ f.Has n o.2 (.word v.2))
      pairs values) :
    ∃ g, Frame.execAll native (Lower.offsetCode n first pairs) f = some g ∧ f.Extends n g ∧
      g.Has (n + 2 * pairs.length) (Lower.offsetValue n first pairs)
        (.word (Ty.i64.wrap (horner i values))) := by
  induction pairs generalizing f n first i values with
  | nil =>
      cases hpairs
      exact ⟨f, rfl, .refl n f, hfirst⟩
  | cons o pairs ih =>
      cases hpairs with
      | @cons _ v _ values hov hpairs =>
          let f₁ := f.set n (.word (Ty.i64.wrap (i * v.2)))
          let f₂ := f₁.set (n + 1) (.word (Ty.i64.wrap (i * v.2 + v.1)))
          have hmul : f.exec native (.binary n .mul first o.2) = some f₁ := by
            rw [Frame.exec_mul htype rfl hfirst.eval hov.2.eval, Ty.wrap_wrap_mul]
          have hadd : f₁.exec native (.binary (n + 1) .add (.register .i64 n) o.1) = some f₂ := by
            have hindex : f₁.eval o.1 = some (.word v.1) :=
              (Frame.eval_set hov.1.before (Nat.le_refl n)).trans hov.1.eval
            rw [Frame.exec_add rfl rfl Frame.eval_set_self hindex]
            simp only [Operand.register, Ty.wrap_wrap_add, f₁, f₂]
          have hext : f.Extends n f₂ :=
            ((Frame.Extends.refl n f).set (Nat.le_refl n)).set (Nat.le_succ n)
          have hsum : f₂.Has (n + 2) (.register .i64 (n + 1))
              (.word (Ty.i64.wrap (i * v.2 + v.1))) := Frame.has_set
          obtain ⟨g, hg, hfg, hvalue⟩ := ih rfl hsum (hpairs.imp fun q w hqw =>
            ⟨(hext.has hqw.1).mono (by omega), (hext.has hqw.2).mono (by omega)⟩)
          refine ⟨g, ?_, hext.trans hfg (by omega), ?_⟩
          · simp only [Lower.offsetCode, htype]
            exact (Frame.execAll_cons hmul).trans ((Frame.execAll_cons hadd).trans hg)
          · simp only [Lower.offsetValue, htype]
            exact hvalue.mono (by simp; omega)

theorem has_zip {os os' : List Operand} {vs vs' : List Int}
    (h : List.Forall₂ (fun o v => f.Has n o (.word v)) os vs)
    (h' : List.Forall₂ (fun o v => f.Has n o (.word v)) os' vs') :
    List.Forall₂ (fun o v => f.Has n o.1 (.word v.1) ∧ f.Has n o.2 (.word v.2))
      (os.zip os') (vs.zip vs') := by
  induction h generalizing os' vs' with
  | nil => exact .nil
  | cons hov _ ih =>
      cases h' with
      | nil => exact .nil
      | cons hov' h' => exact .cons ⟨hov, hov'⟩ (ih h')

/-- The code of an address computes the position and points to it. -/
theorem exec_ownCode (native : Native) (htype : first.type = .i64)
    (hbase : f.Has n a.data (.pointer p)) (hfirst : f.Has n first (.word (Ty.i64.wrap i)))
    (hrest : List.Forall₂ (fun o v => f.Has n o (.word v)) rest columns)
    (hextents : List.Forall₂ (fun o v => f.Has n o (.word v)) a.shape.tail extents)
    (hlen : columns.length = extents.length) :
    ∃ g, Frame.execAll native (Lower.ownCode n a first rest) f = some g ∧ f.Extends n g ∧
      g.eval (.register .ptr (n + 2 * (Lower.dimensions a rest).length)) =
        some (f.address (p.cell a.elemType (Ty.i64.wrap (rowMajor (i :: columns) extents)))) := by
  obtain ⟨g, hg, hfg, hvalue⟩ := exec_offsetCode htype hfirst (has_zip hrest hextents)
  rw [← Lower.dimensions, horner_eq_rowMajor hlen] at hvalue
  let last := n + 2 * (Lower.dimensions a rest).length
  let place := f.address (p.cell a.elemType (Ty.i64.wrap (rowMajor (i :: columns) extents)))
  have hgep : g.exec native (.gep last a.elemType a.data
      [Lower.offsetValue n first (Lower.dimensions a rest)]) = some (g.set last place) := by
    rw [Frame.exec_gep (hfg.has hbase).eval hvalue.eval, hfg.address]
  refine ⟨g.set last place, ?_, hfg.set (Nat.le_add_right ..), Frame.eval_set_self⟩
  rw [Lower.ownCode, Frame.execAll_append, Lower.dimensions, hg, Option.bind_some]
  exact Frame.execAll_cons hgep

end

/-! ### Distributed arrays -/

/-- The functions behind the entry points that distributed elements need. -/
structure ElementRuntime (native : Native) (dummy : Pointer) : Prop where
  item : ∀ row start count : Int,
    native EntryPoint.itemPointer.symbol [.word row, .word start, .word count] =
      (Spmd.itemOffset row start count).toOption.map .word
  dummy : native EntryPoint.dummyPointer.symbol [] = some (.pointer dummy)

/-- An element of a distributed array that is stored to, in a process that holds `rows`
rows from `first` on. -/
structure DistributedElement (f : Frame) (k : Nat) (a : ArrayOperand) (indices : List Operand)
    (value start count : Operand) extends Element f k a indices where
  first : Int
  rows : Int
  stored : Int
  hasStart : f.Has k start (.word first)
  hasCount : f.Has k count (.word rows)
  hasStored : f.Has k value (.word stored)
  nonneg : 0 ≤ first
  /-- The elements that the process holds can be counted. -/
  room : Word.i64.Fits (rows * extents.prod)

namespace DistributedElement

variable {native : Native} {dummy : Pointer} {f : Frame} {k : Nat} {a : ArrayOperand}
  {indices : List Operand} {value start count : Operand}

/-- The process holds the row. -/
def Inside (e : DistributedElement f k a indices value start count) : Prop :=
  e.first ≤ e.row ∧ e.row < e.first + e.rows

instance (e : DistributedElement f k a indices value start count) : Decidable e.Inside := by
  unfold Inside; infer_instance

def offset (e : DistributedElement f k a indices value start count) : Int :=
  if e.Inside then e.row - e.first else -1

theorem itemOffset_eq_offset (e : DistributedElement f k a indices value start count) :
    Spmd.itemOffset e.row e.first e.rows = .ok e.offset :=
  Spmd.itemOffset_of_nonneg e.fits e.nonneg e.rows

theorem offset_fits (e : DistributedElement f k a indices value start count) :
    Word.i64.Fits e.offset := by
  have hrow := e.fits
  have hfirst := e.nonneg
  rw [Word.fits_i64] at hrow ⊢
  by_cases hin : e.Inside
  · have hfrom := hin.1
    rw [offset, if_pos hin]
    omega
  · rw [offset, if_neg hin]
    decide

/-- Where the store goes. -/
def target (e : DistributedElement f k a indices value start count) (dummy : Pointer) : Pointer :=
  if e.Inside then e.address (e.row - e.first) else dummy

/-- The choice between a place and the dummy slot: minus one stands for the latter. -/
theorem exec_choice (hnative : ElementRuntime native dummy) {row last : Nat} {i : Int}
    {place : Datum} (hrow : f.eval (.register .i64 row) = some (.word i))
    (hplace : f.eval (.register .ptr last) = some place) :
    ∃ g, Frame.execAll native [.icmp (last + 1) "eq" (.register .i64 row) (.i64 (-1)),
        EntryPoint.dummyPointer.call (last + 2) [],
        .select (last + 3) (.register .i1 (last + 1)) (.register .ptr (last + 2))
          (.register .ptr last)] f = some g ∧
      f.Extends (last + 1) g ∧
      g.eval (.register .ptr (last + 3)) = some (if i = -1 then .pointer dummy else place) := by
  let f₁ := f.set (last + 1) (.bit (decide (i = -1)))
  let f₂ : Frame := ({ f₁ with calls := f₁.calls ++ [(EntryPoint.dummyPointer.symbol, [])] } :
    Frame).set (last + 2) (.pointer dummy)
  let f₃ := f₂.set (last + 3) (if decide (i = -1) then .pointer dummy else place)
  have hicmp : f.exec native (.icmp (last + 1) "eq" (.register .i64 row) (.i64 (-1))) = some f₁ :=
    Frame.exec_icmp hrow (Frame.eval_i64 f (-1)) (Llvm.compare?_eq ..)
  have hdummy : f₁.exec native (EntryPoint.dummyPointer.call (last + 2) []) = some f₂ :=
    Frame.exec_call rfl hnative.dummy
  have hselect : f₂.exec native (.select (last + 3) (.register .i1 (last + 1))
      (.register .ptr (last + 2)) (.register .ptr last)) = some f₃ := by
    refine Frame.exec_select ?_ Frame.eval_set_self ?_
    · exact (Frame.eval_set_of_lt (by omega)).trans Frame.eval_set_self
    · exact (Frame.eval_set_of_lt (by omega)).trans
        ((Frame.eval_set_of_lt (by omega)).trans hplace)
  have hext : f.Extends (last + 1) f₁ := (Frame.Extends.refl _ f).set (Nat.le_refl _)
  refine ⟨f₃, ?_, (hext.call (by omega) _).set (by omega), ?_⟩
  · rw [Frame.execAll_cons hicmp, Frame.execAll_cons hdummy, Frame.execAll_singleton, hselect]
  · rw [Frame.eval_set_self]
    by_cases hi : i = -1 <;> simp [hi]

/-- The code up to the choice: the element's address in the rows that the process holds,
and otherwise the dummy slot, whatever came out of the arithmetic. -/
theorem exec_distributedCode (hnative : ElementRuntime native dummy) {first : Operand}
    {rest : List Operand} (e : DistributedElement f k a (first :: rest) value start count) :
    ∃ g, Frame.execAll native (Lower.distributedCode k a first rest start count) f = some g ∧
      f.Extends k g ∧
      g.eval (.register .ptr (k + 2 * (Lower.dimensions a rest).length + 4)) =
        some (if e.Inside then f.address (e.address (e.row - e.first)) else .pointer dummy) := by
  obtain ⟨hfirst, hrest⟩ := List.forall₂_cons.mp e.hasIndices
  let last := k + 2 * (Lower.dimensions a rest).length + 1
  -- the row in the chunk
  let f₁ : Frame := ({ f with calls := f.calls ++ [(EntryPoint.itemPointer.symbol,
    [.word e.row, .word e.first, .word e.rows])] } : Frame).set k (.word e.offset)
  have hitem : f.exec native (EntryPoint.itemPointer.call k [first, start, count]) = some f₁ := by
    refine Frame.exec_call ?_ ?_
    · simp [hfirst.eval, e.hasStart.eval, e.hasCount.eval]
    · rw [hnative.item, e.itemOffset_eq_offset]
      rfl
  have hf₁ : f.Extends k f₁ := (Frame.Extends.refl k f).call (Nat.le_refl k) _
  have hrow : f₁.Has (k + 1) (.register .i64 k) (.word e.offset) := Frame.has_set
  have hwrapped : f₁.Has (k + 1) (.register .i64 k) (.word (Ty.i64.wrap e.offset)) := by
    rwa [Ty.wrap_i64_of_fits e.offset_fits]
  -- the address that belongs to it
  have hkeep : ∀ {os : List Operand} {vs : List Int},
      List.Forall₂ (fun o v => f.Has k o (.word v)) os vs →
      List.Forall₂ (fun o v => f₁.Has (k + 1) o (.word v)) os vs := fun h =>
    h.imp fun o v hov => (hf₁.has hov).mono (Nat.le_succ k)
  obtain ⟨f₂, hf₂, hext₂, hptr⟩ := exec_ownCode native rfl
    ((hf₁.has e.hasBase).mono (Nat.le_succ k)) hwrapped (hkeep hrest) (hkeep e.hasExtents)
    e.inRange.length_eq
  have hlast : k + 1 + 2 * (Lower.dimensions a rest).length = last := by omega
  rw [hlast, hf₁.address, ← Element.position] at hptr
  -- the choice
  obtain ⟨g, hg, hext₃, hchosen⟩ := exec_choice hnative (hext₂.has hrow).eval hptr
  refine ⟨g, ?_, (hf₁.trans hext₂ (Nat.le_succ k)).trans hext₃ (by omega), hchosen.trans ?_⟩
  · rw [Lower.distributedCode, List.cons_append, Frame.execAll_cons hitem, Frame.execAll_append,
      hf₂, Option.bind_some]
    exact hg
  · by_cases hin : e.Inside
    · have hoffset : e.offset = e.row - e.first := if_pos hin
      have hfrom := hin.1
      have hto := hin.2
      have hfits : Word.i64.Fits (e.position (e.row - e.first)) :=
        e.position_fits (by omega) (by omega) e.room
      rw [hoffset, if_neg (by omega), if_pos hin, Ty.wrap_i64_of_fits hfits, Element.address]
    · have hoffset : e.offset = -1 := if_neg hin
      rw [hoffset, if_pos rfl, if_neg hin]

/-- The store changes the memory at its target only. -/
theorem exec_store (hnative : ElementRuntime native dummy) {first : Operand}
    {rest : List Operand} (e : DistributedElement f k a (first :: rest) value start count)
    (hvalue : value.type = a.elemType) :
    (Frame.execAll native (Lower.distributedCode k a first rest start count ++
      [.store value (.register .ptr (k + 2 * (Lower.dimensions a rest).length + 4))]) f).map
        Frame.memory = f.memory.store a.elemType (e.target dummy) e.stored := by
  obtain ⟨g, hg, hfg, hptr⟩ := e.exec_distributedCode hnative
  have hstored := (hfg.has e.hasStored).eval
  rw [Frame.execAll_append, hg, Option.bind_some, Frame.execAll_singleton, ← hvalue, ← hfg.memory]
  by_cases hin : e.Inside
  · rw [if_pos hin, ← hfg.address] at hptr
    rw [target, if_pos hin]
    exact Frame.exec_store_address hstored hptr
  · rw [if_neg hin] at hptr
    rw [target, if_neg hin]
    exact Frame.exec_store_pointer hstored hptr

def column (e : DistributedElement f k a indices value start count) : Nat :=
  (rowMajor e.columns e.extents.tail).toNat

/-- The chunk of a process whose elements are given. -/
def chunk (e : DistributedElement f k a indices value start count) (xs : List Int) :
    Spmd.Chunk Int :=
  .of xs.toArray e.extents.prod.toNat e.first e.rows

/-- The memory has all elements of the process, and a dummy slot that is none of them. -/
structure Backed (e : DistributedElement f k a indices value start count) (dummy : Pointer)
    (xs : List Int) : Prop where
  length : xs.length = (e.rows * e.extents.prod).toNat
  holds : f.memory.Holds a.elemType e.base xs
  accessible : f.memory.Accessible dummy a.elemType.size
  apart : ∀ i < xs.length, dummy.Apart a.elemType.size (e.base.cell a.elemType i) a.elemType.size

theorem chunk_set (e : DistributedElement f k a indices value start count) {xs : List Int}
    (hlength : xs.length = (e.rows * e.extents.prod).toNat) (x : Int) :
    ∃ c, (e.chunk xs).set e.row e.column x = .ok c ∧
      c.data.toList =
        (if e.Inside then xs.set (e.position (e.row - e.first)).toNat x else xs) ∧
      c.dropped = if e.Inside then 0 else 1 := by
  have hpos := InRange.prod_pos e.inRange
  obtain ⟨hlo, hhi⟩ := InRange.rowMajor_bounds e.inRange
  obtain ⟨m, hm⟩ : ∃ m : Nat, e.extents.prod = m := ⟨e.extents.prod.toNat, by omega⟩
  have hroom := e.room
  rw [Word.fits_i64] at hroom
  have hwidth : (e.chunk xs).rowLength = m := by
    simp only [chunk, Spmd.Chunk.of, hm]
    omega
  have hsize : ((e.chunk xs).data.size : Int) =
      max 0 ((e.chunk xs).count * (e.chunk xs).rowLength) := by
    rw [hwidth, ← hm]
    simp only [chunk, Spmd.Chunk.of, List.size_toArray, hlength]
    omega
  have hbound : ((e.chunk xs).data.size : Int) ≤ maxBytes := by
    rw [maxBytes_eq, hsize, hwidth, ← hm]
    simp only [chunk, Spmd.Chunk.of]
    omega
  have hcolumn : e.column < (e.chunk xs).rowLength := by
    rw [hwidth, column]
    omega
  unfold Spmd.Chunk.set
  rw [Spmd.Chunk.slot?_of_room _ e.column e.fits e.nonneg hsize hbound, ok_bind]
  by_cases hin : e.Inside
  · have hplace : (e.row - (e.chunk xs).start).toNat * (e.chunk xs).rowLength + e.column =
        (e.position (e.row - e.first)).toNat := by
      have hfrom := hin.1
      obtain ⟨r, hr⟩ : ∃ r : Nat, e.row - e.first = r := ⟨(e.row - e.first).toNat, by omega⟩
      have hstart : e.row - (e.chunk xs).start = r := hr
      have hcast : (r : Int) * m = (r * m : Nat) := by simp
      rw [hwidth, hstart, Element.position_eq, hr, hm, column, Int.toNat_natCast]
      omega
    rw [if_pos ⟨hin, hcolumn⟩, hplace, if_pos hin, if_pos hin]
    exact ⟨_, rfl, Array.toList_setIfInBounds .., rfl⟩
  · rw [if_neg fun h => hin h.1, if_neg hin, if_neg hin]
    exact ⟨_, rfl, rfl, rfl⟩

/-- A store in memory and a write to the chunk do the same. -/
theorem store_agrees (e : DistributedElement f k a indices value start count) {xs : List Int}
    (h : e.Backed dummy xs) :
    ∃ m c, f.memory.store a.elemType (e.target dummy) e.stored = some m ∧
      (e.chunk xs).set e.row e.column (a.elemType.wrap e.stored) = .ok c ∧
      m.Holds a.elemType e.base c.data.toList ∧ c.dropped = if e.Inside then 0 else 1 := by
  obtain ⟨c, hset, hdata, hdropped⟩ := e.chunk_set h.length (a.elemType.wrap e.stored)
  by_cases hin : e.Inside
  · have hfrom := hin.1
    have hto := hin.2
    have hbounds : 0 ≤ e.position (e.row - e.first) ∧
        e.position (e.row - e.first) < e.rows * e.extents.prod :=
      e.position_bounds (by omega) (by omega)
    obtain ⟨i, hi⟩ : ∃ i : Nat, e.position (e.row - e.first) = i :=
      ⟨(e.position (e.row - e.first)).toNat, by omega⟩
    rw [if_pos hin, hi, Int.toNat_natCast] at hdata
    rw [target, if_pos hin, Element.address, hi]
    obtain ⟨m, hm⟩ := h.holds.exists_store i (by rw [h.length]; omega) e.stored
    exact ⟨m, c, hm, hset, by rw [hdata]; exact h.holds.store hm, hdropped⟩
  · rw [if_neg hin] at hdata
    rw [target, if_neg hin]
    obtain ⟨m, hm⟩ := Memory.exists_store (Ty.isWord_ofElement a.elem) h.accessible e.stored
    exact ⟨m, c, hm, hset, by rw [hdata]; exact h.holds.store_apart hm h.apart, hdropped⟩

end DistributedElement

/-- A read of an element loads from its address, if that can be computed at all. -/
theorem Element.exec_load {native : Native} {f : Frame} {k : Nat} {a : ArrayOperand}
    {first : Operand} {rest : List Operand} (e : Element f k a (first :: rest))
    (htype : first.type = .i64) (hfits : Word.i64.Fits (e.position e.row)) :
    (Frame.execAll native (Lower.ownCode k a first rest ++
      [.load (k + 2 * (Lower.dimensions a rest).length + 1) a.elemType
        (.register .ptr (k + 2 * (Lower.dimensions a rest).length))]) f).bind
        (·.eval (.register a.elemType (k + 2 * (Lower.dimensions a rest).length + 1))) =
      (f.memory.load a.elemType (e.address e.row)).map .word := by
  obtain ⟨hfirst, hrest⟩ := List.forall₂_cons.mp e.hasIndices
  have hwrapped : f.Has k first (.word (Ty.i64.wrap e.row)) := by
    rwa [Ty.wrap_i64_of_fits e.fits]
  obtain ⟨g, hg, hfg, hptr⟩ := exec_ownCode native htype e.hasBase hwrapped hrest e.hasExtents
    e.inRange.length_eq
  rw [← Element.position, Ty.wrap_i64_of_fits hfits, ← hfg.address] at hptr
  rw [Frame.execAll_append, hg, Option.bind_some, Frame.execAll_singleton, ← hfg.memory]
  exact Frame.exec_load_address hptr

/-- Elements are where the row-major layout has them. A store into a distributed array goes
to the row's own place in the chunk of the process, or to the dummy slot if the chunk does
not have the row, and leaves what a write to the chunk leaves; a read loads from the place
of its indices, which can be computed for every row of an array whose elements can be
counted; and no two elements share a place. -/
theorem elements_rowMajor {native : Native} {dummy : Pointer}
    (hnative : ElementRuntime native dummy) (f : Frame) (s : Session) (a : ArrayOperand)
    (indices : List Operand) :
    (∀ (value start count v : Operand) (t : Session)
      (e : DistributedElement f s.draft.nextRegister a indices value start count),
      Lower.setItem a indices value start count s = .ok v t →
      ∃ code, t.draft = (s.adding [] code).draft ∧
        (Frame.execAll native code f).map Frame.memory =
          f.memory.store a.elemType (e.target dummy) e.stored ∧
        ∀ xs, e.Backed dummy xs → ∃ m c,
          (Frame.execAll native code f).map Frame.memory = some m ∧
          (e.chunk xs).set e.row e.column (a.elemType.wrap e.stored) = .ok c ∧
          m.Holds a.elemType e.base c.data.toList ∧ c.dropped = if e.Inside then 0 else 1) ∧
    (∀ (v : Operand) (t : Session) (e : Element f s.draft.nextRegister a indices),
      Lower.getItem a indices s = .ok v t →
      ∃ code, t = s.adding [] code ∧
        (Word.i64.Fits (e.position e.row) →
          (Frame.execAll native code f).bind (·.eval v) =
            (f.memory.load a.elemType (e.address e.row)).map .word) ∧
        ∀ rows, 0 ≤ e.row → e.row < rows → Word.i64.Fits (rows * e.extents.prod) →
          Word.i64.Fits (e.position e.row)) ∧
    ∀ (base : Pointer) (is js extents : List Int), InRange is extents → InRange js extents →
      is ≠ js →
      base.cell a.elemType (rowMajor is extents.tail) ≠
        base.cell a.elemType (rowMajor js extents.tail) := by
  refine ⟨?_, ?_, ?_⟩
  · intro value start count v t e hset
    obtain ⟨first, rest, m, m', rfl, -, -, -, hvalue, -, -, -, rfl⟩ := Lower.setItem_eq_ok hset
    refine ⟨_, rfl, e.exec_store hnative hvalue, fun xs hxs => ?_⟩
    rw [e.exec_store hnative hvalue]
    exact e.store_agrees hxs
  · intro v t e hget
    obtain ⟨first, rest, rfl, hindexed, rfl, rfl⟩ := Lower.getItem_eq_ok hget
    exact ⟨_, rfl, e.exec_load hindexed.first, fun rows => e.position_fits⟩
  · intro base is js extents his hjs hne heq
    refine hne (InRange.rowMajor_inj his hjs ?_)
    exact Pointer.cell_inj (Ty.size_pos (Ty.isWord_ofElement a.elem)) heq

def chunkNative : Native := fun callee args =>
  if callee = EntryPoint.itemPointer.symbol then
    match args with
    | [.word row, .word start, .word count] => (Spmd.itemOffset row start count).toOption.map .word
    | _ => none
  else if callee = EntryPoint.dummyPointer.symbol then some (.pointer ⟨1, 0⟩)
  else none

theorem elementRuntime_chunkNative : ElementRuntime chunkNative ⟨1, 0⟩ where
  item _ _ _ := if_pos rfl
  dummy := rfl

/-- A process with two rows of three columns, all zero. -/
def twoRows : Frame where
  names name := if name = "%a" then some (.pointer ⟨0, 0⟩) else
    if name = "%i" then some (.word 4) else none
  memory := ⟨2, fun object => if object = 0 then 24 else 4, fun _ _ => 0⟩

def threeColumns : ArrayOperand := ⟨⟨.ptr, .param "a"⟩, [.i64 2, .i64 3], .int32⟩

def storeKernel : Session :=
  ⟨.start "main" {}, .start "kernel" .i32 [(.ptr, "a"), (.i64, "i")] false⟩

/-- Row four and column two, in a process that holds the rows three and four. -/
def lastElement : DistributedElement twoRows 0 threeColumns [⟨.i64, .param "i"⟩, .i64 2]
    (.i32 7) (.i64 3) (.i64 2) where
  base := ⟨0, 0⟩
  row := 4
  columns := [2]
  extents := [3]
  first := 3
  rows := 2
  stored := 7
  hasBase := ⟨Operand.before_param 0 (by decide), rfl⟩
  hasIndices := .cons ⟨Operand.before_param 0 (by decide), rfl⟩ (.cons ⟨trivial, rfl⟩ .nil)
  hasExtents := .cons ⟨trivial, rfl⟩ .nil
  hasStart := ⟨trivial, rfl⟩
  hasCount := ⟨trivial, rfl⟩
  hasStored := ⟨trivial, rfl⟩
  fits := by decide
  inRange := .cons (by decide) .nil
  nonneg := by decide
  room := by decide

theorem backed_lastElement : lastElement.Backed ⟨1, 0⟩ (List.replicate 6 0) where
  length := by decide
  holds := by decide
  accessible := by decide
  apart _ _ := .inl Nat.one_ne_zero

theorem elements_rowMajor_lastElement :
    ∃ v t code m c,
      Lower.setItem threeColumns [⟨.i64, .param "i"⟩, .i64 2] (.i32 7) (.i64 3) (.i64 2)
        storeKernel = .ok v t ∧
      t.draft = (storeKernel.adding [] code).draft ∧
      (Frame.execAll chunkNative code twoRows).map Frame.memory = some m ∧
      (lastElement.chunk (List.replicate 6 0)).set 4 2 7 = .ok c ∧
      m.Holds .i32 ⟨0, 0⟩ c.data.toList ∧ c.dropped = 0 := by
  have hok : Llvm.Emit.succeeds (Lower.setItem threeColumns [⟨.i64, .param "i"⟩, .i64 2] (.i32 7)
      (.i64 3) (.i64 2)) storeKernel := by decide +kernel
  obtain ⟨v, t, h⟩ := Llvm.Emit.exists_of_succeeds hok
  obtain ⟨code, hcode, -, hagrees⟩ := (elements_rowMajor elementRuntime_chunkNative twoRows
    storeKernel threeColumns _).1 _ _ _ v t lastElement h
  obtain ⟨m, c, hm, hset, hholds, hdropped⟩ := hagrees _ backed_lastElement
  exact ⟨v, t, code, m, c, h, hcode, hm, hset, hholds, hdropped⟩

end SpmdArrays.Lowering
