import SpmdArrays.Proofs.Exec.Definers
import SpmdArrays.Proofs.Store.Answers
import SpmdArrays.Proofs.Store.Slabs

/-!
An array has one element for each of its cells. Nothing checks this when a program
runs: an item store takes the elements of another array as they are, and a read
takes whatever buffer its device hands back. It holds nevertheless, for every array
that a run meets and at any depth of its tuples, once it holds for the arguments.
A device is asked for no more than buffers of the size they came with, and the
reference device is one of this kind.

What a variable holds as an array keeps its type and its extents until the variable
itself is assigned; item stores and reads replace elements and nothing else.
-/

namespace SpmdArrays

/-- One element for each cell. -/
def ArrayValue.Filled (a : ArrayValue) : Prop := a.data.size = a.shape.prod

namespace Value

/-- The value is the array, or a tuple with the array somewhere in it. -/
inductive Contains (a : ArrayValue) : Value → Prop
  | self : Contains a (.array a)
  | item {v : Value} {items : List Value} (hv : v ∈ items) (h : Contains a v) :
      Contains a (.tuple items)

def Filled (v : Value) : Prop := ∀ a, v.Contains a → a.Filled

@[simp] theorem filled_array {a : ArrayValue} : (array a).Filled ↔ a.Filled := by
  constructor
  · intro h
    exact h a .self
  · intro h b hb
    cases hb
    exact h

@[simp] theorem filled_tuple {items : List Value} :
    (tuple items).Filled ↔ ∀ v ∈ items, v.Filled := by
  constructor
  · intro h v hv a ha
    exact h a (.item hv ha)
  · intro h a ha
    cases ha with
    | item hv ha => exact h _ hv a ha

theorem filled_ofLiteral (lit : Literal) : (ofLiteral lit).Filled := by
  intro a ha
  cases lit <;> cases ha

theorem filled_result (e : EntryPoint) (status : Int) : (e.result status).Filled := by
  intro a ha
  cases e <;> cases ha

theorem Filled.of_item {base index v : Value} (h : base.Filled) (hv : base.item index = .ok v) :
    v.Filled := by
  unfold item at hv
  split at hv
  · split at hv
    · rename_i hw
      cases hv
      split at hw
      · cases hw
      · exact filled_tuple.mp h _ (List.mem_of_getElem? hw)
    · cases hv
  · cases hv

/-- The only tuple among the attributes is a list of extents. -/
theorem filled_of_attr {base v : Value} {name : String} (hv : base.attr name = .ok v) :
    v.Filled := by
  unfold attr at hv
  split at hv
  · split at hv
    · cases hv
      exact nofun
    · cases hv
  · split at hv
    · cases hv
      refine filled_tuple.mpr fun w hw => ?_
      obtain ⟨extent, -, rfl⟩ := List.mem_map.mp hw
      exact nofun
    · cases hv
  · cases hv

/-- Equal shapes have equal numbers of cells. -/
theorem Filled.of_stored {target source v : Value} {index : Literal} (h : source.Filled)
    (hv : target.stored index source = .ok v) : v.Filled := by
  unfold stored at hv
  split at hv
  · split at hv
    · split at hv
      · cases hv
        rename_i d s _ hshape
        have hs : s.data.size = s.shape.prod := filled_array.mp h
        refine filled_array.mpr ?_
        rw [ArrayValue.Filled, hs, hshape]
      · cases hv
    · cases hv
  · cases hv

end Value

theorem ArrayValue.filled_of_zeros {elem : ElementType} {shape : List Nat} {a : ArrayValue}
    (h : ArrayValue.zeros elem shape = .ok a) : a.Filled := by
  obtain ⟨n, hn, h₁⟩ := exists_of_bind_ok h
  obtain ⟨-, -, h₂⟩ := exists_of_bind_ok h₁
  cases h₂
  rw [ArrayValue.Filled, Array.size_replicate, Word.product_ok hn, Int.toNat_natCast]

namespace Env

def Filled (env : Env) : Prop := ∀ (x : String) (v : Value), env[x]? = some v → v.Filled

variable {env : Env}

theorem Filled.insert (h : env.Filled) {v : Value} (hv : v.Filled) (x : String) :
    Filled (env.insert x v) := by
  intro y w hw
  rw [Env.getElem?_insert] at hw
  split at hw
  · cases hw
    exact hv
  · exact h y w hw

theorem filled_foldl_insert {ps : List (String × Value)} (h : env.Filled)
    (hps : ∀ p ∈ ps, p.2.Filled) :
    Filled (ps.foldl (fun env p => env.insert p.1 p.2) env) := by
  induction ps generalizing env with
  | nil => exact h
  | cons p ps ih =>
      exact ih (h.insert (hps p (List.mem_cons_self ..)) p.1)
        fun q hq => hps q (List.mem_cons_of_mem _ hq)

theorem filled_ofArgs (params : List String) {args : List Value} (h : ∀ v ∈ args, v.Filled) :
    (ofArgs params args).Filled := by
  refine filled_foldl_insert (fun x v hv => ?_) fun p hp => h p.2 (List.of_mem_zip hp).2
  rw [Std.TreeMap.getElem?_emptyc] at hv
  cases hv

theorem Filled.mapM_get (h : env.Filled) {vs : List Var} {values : List Value}
    (hvs : vs.mapM env.get = .ok values) : ∀ v ∈ values, v.Filled := by
  induction vs generalizing values with
  | nil =>
      cases hvs
      exact fun v hv => absurd hv List.not_mem_nil
  | cons w vs ih =>
      obtain ⟨v, rest, hv, hrest, rfl⟩ := Env.mapM_get_cons_ok hvs
      exact List.forall_mem_cons.mpr ⟨h _ v hv, ih hrest⟩

theorem Filled.eval (h : env.Filled) {value : Expr} {v : Value} (hv : value.eval env = .ok v) :
    v.Filled := by
  cases value with
  | global name =>
      cases hv
      exact nofun
  | const lit =>
      cases hv
      exact Value.filled_ofLiteral lit
  | copy source => exact h _ v (Env.get_ok (ok_of_mapError_ok hv))
  | tuple items =>
      obtain ⟨values, hvalues, h₁⟩ := exists_of_bind_ok hv
      cases h₁
      exact Value.filled_tuple.mpr (h.mapM_get (ok_of_mapError_ok hvalues))
  | attr base name =>
      obtain ⟨b, -, h₁⟩ := exists_of_bind_ok hv
      exact Value.filled_of_attr (ok_of_mapError_ok h₁)
  | constItem base index indexVar =>
      obtain ⟨b, hb, h₁⟩ := exists_of_bind_ok hv
      exact (h _ b (Env.get_ok (ok_of_mapError_ok hb))).of_item (ok_of_mapError_ok h₁)
  | item base index =>
      obtain ⟨b, hb, h₁⟩ := exists_of_bind_ok hv
      obtain ⟨i, -, h₂⟩ := exists_of_bind_ok h₁
      exact (h _ b (Env.get_ok (ok_of_mapError_ok hb))).of_item (ok_of_mapError_ok h₂)
  | alloc shape elem =>
      obtain ⟨dims, -, h₁⟩ := exists_of_bind_ok hv
      obtain ⟨a, ha, h₂⟩ := exists_of_bind_ok h₁
      cases h₂
      exact Value.filled_array.mpr (ArrayValue.filled_of_zeros (ok_of_mapError_ok ha))

theorem Filled.storedValue (h : env.Filled) {target value : Var} {index : Literal} {v : Value}
    (hv : Exec.storedValue env target index value = .ok v) : v.Filled := by
  obtain ⟨source, hsource, h₁⟩ := exists_of_bind_ok hv
  obtain ⟨old, -, h₂⟩ := exists_of_bind_ok h₁
  exact (h _ source (Env.get_ok hsource)).of_stored h₂

end Env

/-! ### Devices that hand back buffers of the same size -/

/-- Buffers come back as large as they were. -/
def Device.KeepsSizes {σ : Type} (d : Device σ) : Prop :=
  ∀ q s reply t, d.answer q s = (.ok reply, t) → reply.buffer.size = q.buffer.size

theorem Store.Answered.size_buffer {s t : Store} {q : Request} {reply : Reply}
    (h : s.Answered q (.ok reply) t) : reply.buffer.size = q.buffer.size := by
  generalize hr : (Except.ok reply : Except Fault Reply) = r at h
  cases h with
  | faulted fault htransfer => cases hr
  | read hd hcells hdest =>
      cases hr
      simp only [Request.buffer, Array.size_append, List.size_toArray, List.length_map,
        Array.drop, Array.size_extract]
      omega
  | _ =>
      injection hr with hreply
      subst hreply
      rfl

theorem Store.device_keepsSizes : Store.device.KeepsSizes := by
  intro q s reply t h
  have hanswered : s.Answered q (Store.answer q s).1 (Store.answer q s).2 := Store.answered q s
  rw [show Store.answer q s = (.ok reply, t) from h] at hanswered
  exact hanswered.size_buffer

theorem request_buffer {env : Env} {callee : Var} {args : List Var} {kws : List (String × Var)}
    {p : Prepared} {x : String} {a : ArrayValue} (hp : env.request callee args kws = .ok p)
    (hd : p.dest = some (x, a)) : p.request.buffer = a.data := by
  obtain ⟨values, -, -, hprepares⟩ := Env.request_ok hp
  generalize p.request.entry = e at hprepares
  cases hprepares with
  | read t rank start count stride b =>
      obtain ⟨w, -, heq⟩ := Option.map_eq_some_iff.mp hd
      cases heq
      rfl
  | _ => cases hd

/-! ### Statements and runs -/

namespace Exec

variable {σ : Type} {d : Device σ} {f : Function} {m n : Machine σ}

theorem filled_afterCall (hd : d.KeepsSizes) {callee : Var} {args : List Var}
    {kws : List (String × Var)} {p : Prepared} {reply : Reply} {t : σ} (h : m.env.Filled)
    (hp : m.env.request callee args kws = .ok p)
    (ha : d.answer p.request m.device = (.ok reply, t)) : (afterCall m.env p reply).Filled := by
  unfold afterCall
  split
  · rename_i x a hdest
    have hold : a.data.size = a.shape.prod :=
      Value.filled_array.mp (h x (.array a) (dest_ok hp hdest))
    refine h.insert (Value.filled_array.mpr ?_) x
    rw [ArrayValue.Filled, hd _ _ _ _ ha, request_buffer hp hdest, hold]
  · exact h

theorem Runs.filled (hd : d.KeepsSizes) {u : Stmt} (hrun : Runs d m u n) (h : m.env.Filled) :
    n.env.Filled := by
  cases hrun with
  | assign t hv => exact h.insert (h.eval hv) _
  | store t hv => exact h.insert (h.storedValue hv) _
  | call t hp ha hs => exact (filled_afterCall hd h hp ha).insert (Value.filled_result _ _) _

/-- What statements keep of the variables is kept by whatever a row does. -/
theorem final_body_invariant {I : Env → Prop}
    (hstep : ∀ u m n, Runs d m u n → I m.env → I n.env) (ss : List Stmt) (h : I m.env) :
    I (final (body d ss m)).env := by
  induction ss generalizing m with
  | nil => exact h
  | cons u ss ih =>
      rw [body_cons_apply]
      cases hu : stmt d u m with
      | error e n => exact (env_of_stmt_error hu).symm ▸ h
      | ok _ n => exact ih (hstep u m n (runs_of_stmt hu) h)

theorem exists_of_next_done {env : Env} {t : Terminator} {v : Value}
    (h : Next.of env t = .ok (.done (some v))) : ∃ x : String, env[x]? = some v := by
  cases t with
  | jump target => cases h
  | branch cond yes no =>
      obtain ⟨b, -, h₁⟩ := exists_of_bind_ok h
      obtain ⟨c, -, h₂⟩ := exists_of_bind_ok h₁
      cases h₂
  | ret value =>
      cases value with
      | none => cases h
      | some w =>
          obtain ⟨value, hvalue, h₁⟩ := exists_of_bind_ok h
          cases h₁
          exact ⟨w.name, Env.get_ok hvalue⟩

/-- What statements keep of the variables is kept by a run, however it ends; a value
that it returns is that of a variable. -/
theorem final_blocks_invariant {I : Env → Prop}
    (hstep : ∀ u m n, Runs d m u n → I m.env → I n.env) (steps : Nat) (l : Label)
    (h : I m.env) :
    I (final (blocks d f steps l m)).env ∧
      ∀ v n, blocks d f steps l m = .ok (some v) n → ∃ x : String, n.env[x]? = some v := by
  induction steps generalizing l m with
  | zero => exact ⟨h, fun v n hv => nomatch hv⟩
  | succ steps ih =>
      rw [blocks_succ_apply]
      cases f.block? l with
      | none => exact ⟨h, fun v n hv => nomatch hv⟩
      | some b =>
          have hbody := final_body_invariant hstep b.body h
          simp only
          cases hrun : body d b.body m with
          | error e n =>
              rw [hrun] at hbody
              exact ⟨hbody, fun v k hv => nomatch hv⟩
          | ok _ n =>
              rw [hrun] at hbody
              simp only
              cases hnext : Next.of n.env b.term with
              | error e => exact ⟨hbody, fun v k hv => nomatch hv⟩
              | ok next =>
                  cases next with
                  | goto l' => exact ih l' hbody
                  | done w =>
                      refine ⟨hbody, fun v k hv => ?_⟩
                      cases hv
                      exact exists_of_next_done hnext

end Exec

namespace Function

/-- Arrays stay filled. Whatever the function and the store, and whatever arguments it is
run with that are filled, the arrays in all variables are filled wherever the run comes and
where it ends, and so are those in the value that it returns. A statement that does not
assign a variable leaves an array there its type and its extents, whether the statement
succeeds or not. -/
theorem arrays_stay_filled (f : Function) (s : Store) (args : List Value)
    (hargs : ∀ v ∈ args, v.Filled) :
    (∀ rest t m, f.Reaches Store.device args s rest t m → m.env.Filled) ∧
    (Exec.final (Exec.blocks Store.device f stepLimit f.entry (f.begin args s))).env.Filled ∧
    (∀ v, (f.run Store.device args s).1 = .ok (some v) → v.Filled) ∧
    ∀ u rest t m, f.Reaches Store.device args s (u :: rest) t m →
      ∀ x a, m.env[x]? = some (.array a) → ¬ u.Assigns x →
        ∃ data, (Exec.final (Exec.stmt Store.device u m)).env[x]? =
          some (.array { a with data }) := by
  have hbegin : (f.begin args s).env.Filled := Env.filled_ofArgs f.params hargs
  have hstep : ∀ u m n, Exec.Runs Store.device m u n → m.env.Filled → n.env.Filled :=
    fun u m n hrun => hrun.filled Store.device_keepsSizes
  obtain ⟨hfinal, hreturned⟩ :=
    Exec.final_blocks_invariant (f := f) hstep stepLimit f.entry hbegin
  refine ⟨?_, hfinal, ?_, ?_⟩
  · intro rest t m hreach
    exact hreach.invariant hbegin fun u _ m n hm hrun => hstep u m n hrun hm
  · intro v hv
    rw [run_eq_outcome] at hv
    cases hrun : Exec.blocks Store.device f stepLimit f.entry (f.begin args s) with
    | error e n => rw [hrun] at hv; cases hv
    | ok w n =>
        rw [hrun] at hv hfinal
        cases hv
        obtain ⟨x, hx⟩ := hreturned v n hrun
        exact hfinal x v hx
  · intro u rest t m _ x a ha hu
    cases hrun : Exec.stmt Store.device u m with
    | error e n =>
        have henv : n.env = m.env := Exec.env_of_stmt_error hrun
        exact ⟨a.data, by rw [Exec.final, henv, ha]⟩
    | ok _ n => exact (Exec.runs_of_stmt hrun).exists_data ha hu

/-- Stores the array in a pair into another array, and returns the pair of both. -/
def storeFromPair : Function where
  name := "main"
  params := ["x", "p"]
  blocks := #[{
    body := [
      .assign ⟨0, "y", ⟨1, 1⟩⟩ (.constItem ⟨0, "p", ⟨1, 1⟩⟩ (.int 1) none),
      .store ⟨0, "x", ⟨2, 1⟩⟩ (.slice .full) ⟨0, "y", ⟨2, 1⟩⟩,
      .assign ⟨0, "q", ⟨3, 1⟩⟩ (.tuple [⟨0, "x", ⟨3, 1⟩⟩, ⟨0, "p", ⟨3, 1⟩⟩])]
    term := .ret (some ⟨0, "q", ⟨4, 1⟩⟩) }]

def nestedPair? : Except (Stop RunError) (Option Value) → Option (ArrayValue × Int × ArrayValue)
  | .ok (some (.tuple [.array a, .tuple [.int n, .array b]])) => some (a, n, b)
  | _ => none

theorem eq_of_nestedPair? {r : Except (Stop RunError) (Option Value)} {a b : ArrayValue} {n : Int}
    (h : nestedPair? r = some (a, n, b)) :
    r = .ok (some (.tuple [.array a, .tuple [.int n, .array b]])) := by
  unfold nestedPair? at h
  split at h
  · cases h
    rfl
  · cases h

/-- The array keeps its type, although that of the elements it takes is another one. -/
theorem storeFromPair_filled :
    let zeros : ArrayValue := ⟨.float32, [1, 2], #[0, 0]⟩
    let pair : Value := .tuple [.int 1, .array ⟨.int64, [1, 2], #[3, 4]⟩]
    let result : Value := .tuple [.array { zeros with data := #[3, 4] }, pair]
    (∀ v ∈ [.array zeros, pair], Value.Filled v) ∧
      (storeFromPair.run Store.device [.array zeros, pair] (.ofCatalog .empty)).1 =
        .ok (some result) ∧ result.Filled := by
  intro zeros pair result
  have hargs : ∀ v ∈ [.array zeros, pair], Value.Filled v := by
    have hint : (Value.int 1).Filled := nofun
    simp [zeros, pair, ArrayValue.Filled, hint]
  have hrun : (storeFromPair.run Store.device [.array zeros, pair] (.ofCatalog .empty)).1 =
      .ok (some result) := eq_of_nestedPair? (by decide +kernel)
  exact ⟨hargs, hrun, (arrays_stay_filled storeFromPair _ _ hargs).2.2.1 result hrun⟩

end Function

end SpmdArrays
