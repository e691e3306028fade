import SpmdArrays.Proofs.FileCalls.EmittedRuns
import SpmdArrays.Proofs.Store.Transfers

/-!
Reading and writing whole datasets of the reference device. Every extent is asked for
before the array is allocated, so an extent that the machine would announce as a negative
one, or a dimension that the dataset does not have, stops a read before anything was
transferred; an array of another rank is refused by the transfer itself. A write whose
counts lie inside the dataset puts the array at its front, and reading it back
gives the same array.
-/

namespace SpmdArrays

/-! ### Arguments of a transfer -/

theorem Value.asInts_ints (ns : List Int) : (Value.tuple (Value.ints ns)).asInts = .ok ns := by
  change (Value.ints ns).mapM Value.asInt = .ok ns
  induction ns with
  | nil => rfl
  | cons n ns ih =>
      rw [Value.ints, List.map_cons, List.mapM_cons, ← Value.ints, ih]
      rfl

theorem Device.origin_eq (rank : Nat) :
    Device.origin rank = .tuple (Value.ints (List.replicate rank 0)) := by
  rw [Device.origin, Value.ints, List.map_replicate]

theorem Transfer.ofValues_origin (file : Int) (name : String) (rank : Nat) (counts : List Int) :
    Transfer.ofValues (.handle file) (.str name) (.int rank) (Device.origin rank)
        (.tuple (Value.ints counts)) (.int 0) =
      if counts.length = rank then .ok ⟨file, name, List.replicate rank 0, counts, 0⟩
      else .error (.typeError (.transferRank rank rank counts.length)) := by
  unfold Transfer.ofValues
  rw [Device.origin_eq, Value.asInts_ints, Value.asInts_ints]
  simp only [Value.asInt, ok_bind, List.length_replicate]
  by_cases h : counts.length = rank
  · rw [if_neg (by omega), if_pos h]
    rfl
  · rw [if_pos (by omega), if_neg h]

section

variable {σ : Type} {d : Device σ} {file : Int} {name : String} {rank : Nat} {counts : List Int}

theorem Device.invoke_size (dim : Nat) :
    d.invoke .size [.handle file, .str name, .int dim] = d.demand (.size file name dim) := rfl

theorem Device.invoke_read (h : counts.length = rank) (a : ArrayValue) :
    d.invoke .read [.handle file, .str name, .int rank, Device.origin rank,
        .tuple (Value.ints counts), .int 0, .array a] =
      d.demand (.read file name (List.replicate rank 0) counts 0 a.data) := by
  have hp : prepare .read [] [.handle file, .str name, .int rank, Device.origin rank,
      .tuple (Value.ints counts), .int 0, .array a] =
        .ok { request := .read file name (List.replicate rank 0) counts 0 a.data } := by
    change (Transfer.ofValues _ _ _ _ _ _ >>= _) = _
    rw [Transfer.ofValues_origin, if_pos h]
    rfl
  rw [Device.invoke, hp]
  rfl

theorem Device.invoke_write (a : ArrayValue) :
    d.invoke .write [.handle file, .str name, .int rank, Device.origin rank,
        .tuple (Value.ints counts), .int 0, .array a] =
      if counts.length = rank then
        d.demand (.write file name (List.replicate rank 0) counts 0 a.data)
      else Service.ofExcept
        (.error (.failed (.typeError (.transferRank rank rank counts.length)))) := by
  have hp : prepare .write [] [.handle file, .str name, .int rank, Device.origin rank,
      .tuple (Value.ints counts), .int 0, .array a] =
        if counts.length = rank then
          .ok { request := .write file name (List.replicate rank 0) counts 0 a.data }
        else .error (.typeError (.transferRank rank rank counts.length)) := by
    change (Transfer.ofValues _ _ _ _ _ _ >>= _) = _
    rw [Transfer.ofValues_origin]
    split <;> rfl
  rw [Device.invoke, hp]
  split <;> rfl

end

namespace Store

variable {s t : Store} {q : Request} {reply : Reply}

theorem demand_of_answer (h : answer q s = (.ok reply, t)) (hstatus : 0 ≤ reply.status) :
    device.demand q s = .ok reply t := by
  unfold Device.demand checkStatus
  rw [show device.answer q s = answer q s from rfl, h]
  simp only
  rw [if_neg (by omega)]

theorem demand_of_refused (h : answer q s = (.ok reply, t)) (hstatus : reply.status < 0) :
    device.demand q s = .error (.failed (.callFailed q.entry.name reply.status)) t := by
  unfold Device.demand checkStatus
  rw [show device.answer q s = answer q s from rfl, h]
  simp only
  rw [if_pos hstatus]

def recordAll (s : Store) (cs : List Call) : Store := { s with calls := s.calls ++ cs.toArray }

theorem recordAll_nil (s : Store) : s.recordAll [] = s := by simp [recordAll]

theorem record_recordAll (s : Store) (c : Call) (cs : List Call) :
    (s.record c).recordAll cs = s.recordAll (c :: cs) := by
  simp [record, recordAll]

theorem recordAll_record (s : Store) (cs : List Call) (c : Call) :
    (s.recordAll cs).record c = s.recordAll (cs ++ [c]) := by
  simp [record, recordAll]

/-! ### Extents -/

variable {file : Int} {name source path : String} {info : DatasetInfo}

theorem extent_ok (hd : s.dataset? file name = some (source, path, info)) {dim extent : Nat}
    (h : info.shape[dim]? = some extent) (hsmall : Word.i64.Fits extent) :
    device.extent (.handle file) (.str name) dim s = .ok extent (s.record (.size name dim)) := by
  have hans := answer_size hd dim
  rw [h, Option.map_some, Option.getD_some, Slab.announced_of_fits hsmall] at hans
  have hdemand := demand_of_answer hans (by simp)
  rw [Device.extent, Device.invoke_size, Service.bind_of_ok hdemand]
  rfl

theorem extent_refused (hd : s.dataset? file name = some (source, path, info)) (dim : Nat)
    (hwords : Slab.Unsigned info.shape)
    (h : ∀ e : Nat, info.shape[dim]? = some e → ¬ Word.i64.Fits e) :
    ∃ status, device.extent (.handle file) (.str name) dim s =
      .error (.failed (.callFailed "size" status)) (s.record (.size name dim)) := by
  have hans := answer_size hd dim
  have hneg : (info.shape[dim]?.map Slab.announced).getD refused < 0 := by
    cases he : info.shape[dim]? with
    | none => decide
    | some e =>
        rw [Option.map_some, Option.getD_some]
        exact Slab.announced_neg (h e he) (hwords e (List.mem_of_getElem? he))
  have hdemand := demand_of_refused hans hneg
  refine ⟨(info.shape[dim]?.map Slab.announced).getD refused, ?_⟩
  rw [Device.extent, Device.invoke_size, Service.bind_of_error hdemand]
  rfl

def sizeCalls (name : String) (dims : List Nat) : List Call :=
  dims.map fun (dim : Nat) => .size name dim

theorem mapM_extent_ok (hd : s.dataset? file name = some (source, path, info)) {dims es : List Nat}
    (h : List.Forall₂ (fun dim (e : Nat) => info.shape[dim]? = some e ∧ Word.i64.Fits e) dims es) :
    dims.mapM (device.extent (.handle file) (.str name)) s =
      .ok es (s.recordAll (sizeCalls name dims)) := by
  induction h generalizing s with
  | nil => exact congrArg (EStateM.Result.ok []) (recordAll_nil s).symm
  | cons hfirst _ ih =>
      rw [List.mapM_cons, Service.bind_of_ok (extent_ok hd hfirst.1 hfirst.2),
        Service.bind_of_ok (ih (s := s.record _) hd), record_recordAll]
      rfl

theorem mapM_extent_refused (hd : s.dataset? file name = some (source, path, info))
    (hwords : Slab.Unsigned info.shape) {dims : List Nat} {dim : Nat}
    (hmem : dim ∈ dims) (h : ∀ e : Nat, info.shape[dim]? = some e → ¬ Word.i64.Fits e) :
    ∃ status calls, dims.mapM (device.extent (.handle file) (.str name)) s =
      .error (.failed (.callFailed "size" status)) (s.recordAll calls) := by
  induction dims generalizing s with
  | nil => cases hmem
  | cons k ks ih =>
      rw [List.mapM_cons]
      by_cases hk : ∃ e : Nat, info.shape[k]? = some e ∧ Word.i64.Fits e
      · obtain ⟨e, he, hsmall⟩ := hk
        have hrest : dim ∈ ks := by
          rcases List.mem_cons.mp hmem with rfl | hrest
          · exact absurd hsmall (h e he)
          · exact hrest
        obtain ⟨status, calls, hstop⟩ := ih (s := s.record (.size name k)) hd hrest
        refine ⟨status, .size name k :: calls, ?_⟩
        rw [Service.bind_of_ok (extent_ok hd he hsmall), Service.bind_of_error hstop,
          record_recordAll]
      · obtain ⟨status, hstop⟩ := extent_refused hd k hwords
          fun e he hsmall => hk ⟨e, he, hsmall⟩
        refine ⟨status, [.size name k], ?_⟩
        rw [Service.bind_of_error hstop, ← record_recordAll, recordAll_nil]

/-! ### Reading -/

theorem arrayZeros_of_addressable {shape : List Nat} (h : Addressable shape) (elem : ElementType) :
    ArrayValue.zeros elem shape = .ok ⟨elem, shape, Array.replicate shape.prod 0⟩ := by
  unfold ArrayValue.zeros
  rw [Word.product_of_addressable (by decide) (by decide) h, ok_bind, reserve_of_addressable h,
    ok_bind]
  rfl

def readCalls (name : String) (shape : List Nat) : List Call :=
  sizeCalls name (List.range shape.length) ++
    [.read name (List.replicate shape.length 0) (shape.map Int.ofNat)]

/-- Extents that were all announced lead to a read of as many cells. -/
theorem readWhole_of_extents {type : ArrayType} {shape : List Nat}
    (hrank : shape.length = type.rank)
    (hext : (List.range type.rank).mapM (device.extent (.handle file) (.str name)) s = .ok shape t)
    (hshape : Addressable shape) :
    device.readWhole (.handle file) (.str name) type s =
      (device.demand (.read file name (List.replicate shape.length 0) (shape.map Int.ofNat) 0
        (Array.replicate shape.prod 0)) >>= fun reply =>
          pure ⟨type.elem, shape, reply.buffer⟩) t := by
  rw [Device.readWhole, Service.bind_of_ok hext, arrayZeros_of_addressable hshape, mapError_ok,
    Service.ofExcept_ok_bind, Device.invoke_read (by simp [hrank]), hrank]

theorem forall₂_extents {shape : List Nat} {rank : Nat} (hrank : rank ≤ shape.length)
    (hsigned : Slab.Signed (shape.take rank)) :
    List.Forall₂ (fun dim (e : Nat) => shape[dim]? = some e ∧ Word.i64.Fits e)
      (List.range rank) (shape.take rank) := by
  rw [List.forall₂_iff_get]
  refine ⟨by simp [hrank], fun i h₁ h₂ => ?_⟩
  simp only [List.length_range] at h₁
  have hget : shape[i]? = some ((shape.take rank).get ⟨i, h₂⟩) := by
    rw [List.get_eq_getElem, List.getElem_take, List.getElem?_eq_getElem]
  exact ⟨by rw [List.get_eq_getElem, List.getElem_range, hget], hsigned _ (List.get_mem ..)⟩

theorem readWhole_ok (hd : s.dataset? file name = some (source, path, info))
    (hshape : Addressable info.shape) (hsigned : Slab.Signed info.shape) {type : ArrayType}
    (hrank : type.rank = info.shape.length) :
    device.readWhole (.handle file) (.str name) type s =
      .ok ⟨type.elem, info.shape,
        ((List.range info.shape.prod).map (element (s.contents.get? source path))).toArray⟩
        (s.recordAll (readCalls name info.shape)) := by
  have hall : info.shape.take type.rank = info.shape := by rw [hrank, List.take_length]
  have hext := mapM_extent_ok hd
    (forall₂_extents (Nat.le_of_eq hrank) (by rwa [hall]))
  rw [hall] at hext
  have hd' : (s.recordAll (sizeCalls name (List.range type.rank))).dataset? file name =
      some (source, path, info) := hd
  have hans := answer_read hd' hshape hsigned.unsigned
    (Array.replicate info.shape.prod 0) (by simp)
  rw [if_pos ⟨List.forall₂_refl _, hsigned⟩, Slab.map_announced hsigned] at hans
  have hdemand := demand_of_answer hans (by simp)
  rw [readWhole_of_extents hrank.symm hext hshape, Service.bind_of_ok hdemand, recordAll_record]
  have hcells : ((Slab.positions info.shape).map fun p =>
      element (s.contents.get? source path) (Slab.flat info.shape p)) =
        (List.range info.shape.prod).map (element (s.contents.get? source path)) := by
    rw [← Slab.map_flat_positions, List.map_map]
    rfl
  rw [readCalls, ← hcells, hrank]
  rfl

/-- A dimension that the dataset does not have, or whose extent cannot be announced, stops
the extents; a rank that is too small is refused by the transfer. -/
theorem readWhole_refused (hd : s.dataset? file name = some (source, path, info))
    (hshape : Addressable info.shape) (hwords : Slab.Unsigned info.shape)
    {type : ArrayType} (h : ¬ (type.rank = info.shape.length ∧ Slab.Signed info.shape)) :
    ∃ entry status calls, device.readWhole (.handle file) (.str name) type s =
      .error (.failed (.callFailed entry status)) (s.recordAll calls) := by
  by_cases hbad : ∃ dim < type.rank, ∀ e : Nat, info.shape[dim]? = some e → ¬ Word.i64.Fits e
  · obtain ⟨dim, hdim, hextent⟩ := hbad
    obtain ⟨status, calls, hstop⟩ := mapM_extent_refused hd hwords (List.mem_range.mpr hdim) hextent
    refine ⟨"size", status, calls, ?_⟩
    rw [Device.readWhole, Service.bind_of_error hstop]
  · have hle : type.rank ≤ info.shape.length := by
      apply Nat.le_of_not_lt
      intro hlt
      exact hbad ⟨info.shape.length, hlt, by simp⟩
    have hsigned : Slab.Signed (info.shape.take type.rank) := by
      intro n hn
      obtain ⟨i, hi, rfl⟩ := List.mem_iff_getElem.mp hn
      rw [List.length_take] at hi
      apply Decidable.of_not_not
      intro hwide
      refine hbad ⟨i, by omega, fun e he => ?_⟩
      rw [List.getElem_take] at hwide
      rw [List.getElem?_eq_getElem (by omega), Option.some.injEq] at he
      rwa [← he]
    have hlen : (info.shape.take type.rank).length = type.rank := by simp [hle]
    have hfront : Addressable (info.shape.take type.rank) := by
      intro k
      rw [List.take_take]
      exact hshape _
    have hless : ¬ Takes info.shape (info.shape.take type.rank) := by
      intro htakes
      have hfull := htakes.1.length_eq
      rw [hlen] at hfull
      rw [hfull, List.take_length] at hsigned
      exact h ⟨hfull, hsigned⟩
    have hd' : (s.recordAll (sizeCalls name (List.range type.rank))).dataset? file name =
        some (source, path, info) := hd
    have hans := answer_read hd' hshape hsigned.unsigned
      (Array.replicate (info.shape.take type.rank).prod 0) (by simp)
    rw [if_neg hless, Slab.map_announced hsigned] at hans
    have hdemand := demand_of_refused hans (show refused < 0 by decide)
    refine ⟨"read", refused, readCalls name (info.shape.take type.rank), ?_⟩
    rw [readWhole_of_extents hlen (mapM_extent_ok hd (forall₂_extents hle hsigned)) hfront,
      Service.bind_of_error hdemand, recordAll_record, readCalls, hlen]
    rfl

/-! ### Writing -/

theorem writeWhole_eq (hd : s.dataset? file name = some (source, path, info))
    (hshape : Addressable info.shape) {a : ArrayValue}
    (hwords : Slab.Unsigned a.shape) (hdata : a.data.size = a.shape.prod)
    (rank : Nat) :
    device.writeWhole (.handle file) (.str name) rank (.array a) s =
      let t := s.record (.write name (List.replicate rank 0) (a.shape.map Slab.announced))
      if a.shape.length = rank then
        if Takes info.shape a.shape then
          .ok ⟨0, #[]⟩ (t.withContents source path (scatter (s.initial source path info)
            ((Slab.positions a.shape).map (Slab.flat info.shape)) a.data))
        else .error (.failed (.callFailed "write" refused)) t
      else .error (.failed (.typeError (.transferRank rank rank a.shape.length))) s := by
  have hattr : (Value.array a).attr "shape" =
      .ok (.tuple (Value.ints (a.shape.map Slab.announced))) := by
    rw [Value.ints, List.map_map]
    rfl
  rw [Device.writeWhole, hattr, mapError_ok, Service.ofExcept_ok_bind, Device.invoke_write,
    List.length_map]
  by_cases hrank : a.shape.length = rank
  · subst hrank
    have hans := answer_write hd hshape hwords hdata
    simp only [if_true]
    by_cases htakes : Takes info.shape a.shape
    · simp only [if_pos htakes] at hans ⊢
      exact demand_of_answer hans (Int.le_refl 0)
    · simp only [if_neg htakes] at hans ⊢
      exact demand_of_refused hans (show refused < 0 by decide)
  · simp only [if_neg hrank]
    rfl

/-- The elements of a dataset once an array was put at its front. -/
structure PutAtFront (shape : List Nat) (before : Array Float) (a : ArrayValue)
    (after : Array Float) : Prop where
  size : after.size = before.size
  /-- A position below the extents of the array has the element of the array there. -/
  front : ∀ p, Slab.Below a.shape p → after[Slab.flat shape p]? = a.data[Slab.flat a.shape p]?
  /-- Every other position has what it had. -/
  rest : ∀ p, Slab.Below shape p → ¬ Slab.Below a.shape p →
    after[Slab.flat shape p]? = before[Slab.flat shape p]?

theorem putAtFront_scatter {shape : List Nat} {before : Array Float} {a : ArrayValue}
    (hin : InShape a.shape shape) (hdata : a.data.size = a.shape.prod)
    (hbefore : before.size = shape.prod) :
    PutAtFront shape before a
      (scatter before ((Slab.positions a.shape).map (Slab.flat shape)) a.data) := by
  have hinside : ∀ p ∈ Slab.positions a.shape, Slab.Below shape p := fun p hp =>
    (Slab.mem_positions.mp hp).of_inShape hin
  have hlen : ((Slab.positions a.shape).map (Slab.flat shape)).length ≤ a.data.size := by
    rw [List.length_map, Slab.length_positions, hdata]
  refine ⟨size_scatter, fun p hp => ?_, fun p hp hnot => ?_⟩
  · have hnodup : ((Slab.positions a.shape).map (Slab.flat shape)).Nodup :=
      (Slab.nodup_positions a.shape).map_on fun q hq r hr =>
        Slab.flat_inj (hinside q hq) (hinside r hr)
    apply scatter_at hlen hnodup
    · rw [List.getElem?_map, Slab.getElem?_positions hp, Option.map_some]
    · rw [hbefore]
      exact Slab.flat_lt (hp.of_inShape hin)
  · apply scatter_of_notMem hlen
    intro hmem
    obtain ⟨q, hq, hflat⟩ := List.mem_map.mp hmem
    rw [Slab.flat_inj (hinside q hq) hp hflat] at hq
    exact hnot (Slab.mem_positions.mp hq)

/-- An array as large as the dataset replaces all of it. -/
theorem PutAtFront.eq_data {shape : List Nat} {before after : Array Float} {a : ArrayValue}
    (h : PutAtFront shape before a after) (hall : a.shape = shape)
    (hdata : a.data.size = a.shape.prod) (hbefore : before.size = shape.prod) : after = a.data := by
  have hsize : after.size = shape.prod := h.size.trans hbefore
  apply Array.ext_getElem?
  intro i
  by_cases hi : i < shape.prod
  · have hmem : i ∈ (Slab.positions shape).map (Slab.flat shape) := by
      rw [Slab.map_flat_positions]
      exact List.mem_range.mpr hi
    obtain ⟨p, hp, rfl⟩ := List.mem_map.mp hmem
    have hfront := h.front p (by rw [hall]; exact Slab.mem_positions.mp hp)
    rwa [hall] at hfront
  · rw [Array.getElem?_eq_none (by omega), Array.getElem?_eq_none (by rw [hdata, hall]; omega)]

theorem map_element_some (v : Array Float) :
    ((List.range v.size).map (element (some v))).toArray = v := by
  apply Array.ext
  · simp
  · intro i _ hi
    simp [element, hi]

end Store

end SpmdArrays
