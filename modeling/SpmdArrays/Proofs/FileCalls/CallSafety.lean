import SpmdArrays.Proofs.FileCalls.EmittedCalls

/-!
Running the calls that are put in for file calls. What such a call needs is assigned in
its block, once in the whole function, and none of it is dead: the call itself has an
effect, so the names that it uses are needed, and so are the names that their assignments
use. A run that comes to the call has come through these assignments, and nothing has
replaced an entry point since it was loaded. What can still go wrong is a value of the
function that has the wrong kind or is not there, and what the device says.
-/

namespace SpmdArrays

open Expand

namespace Expand

theorem Expands.eq_of_pair {c : FileScope} {st st' : Expansion} {s u w : Stmt}
    (h : Expands c st s [u, w] st') : w = s := by
  have hshort : ∀ e, ¬ EndsInCall e [u, w] := fun e he => by
    have := he.three_le
    simp at this
  generalize hout : [u, w] = out at h
  cases h with
  | datasetKey t base key hf =>
      cases hout
      rfl
  | read t base index indexVar d type hf hd hi ht =>
      exact absurd (hout ▸ endsInCall_readCode ..) (hshort _)
  | openFile t callee args kws name hc hn =>
      exact absurd (hout ▸ endsInCall_openCode ..) (hshort _)
  | closeFile t callee args kws file ho hc =>
      exact absurd (hout ▸ endsInCall_callCode ..) (hshort _)
  | createDataset t callee args kws file name shape elem dims ho hx hc hn hs he hd =>
      exact absurd (hout ▸ endsInCall_createDatasetCode ..) (hshort _)
  | createGroup t callee args kws file name ho hx hy hc hn =>
      exact absurd (hout ▸ endsInCall_callCode ..) (hshort _)
  | write t index value d rank hf hd hi hr =>
      exact absurd (hout ▸ endsInCall_transferCode ..) (hshort _)
  | _ => cases hout

theorem Visits.exists_row {c : FileScope} {st st' : Expansion} {vs : List Visit}
    (h : Visits c st vs st') {v : Visit} (hv : v ∈ vs)
    (hgen : ∀ x ∈ vs.flatMap fun v => definedNames v.block.body, ¬ GeneratedFrom st.nextTemp x) :
    ∃ st₁ st₂, st.nextTemp ≤ st₁.nextTemp ∧ ExpandsRow c st₁ v.block.body v.outs st₂ := by
  induction h with
  | nil st => cases hv
  | cons hrow hvs ih =>
      rw [List.flatMap_cons] at hgen
      rcases List.mem_cons.mp hv with rfl | hv
      · refine ⟨_, _, ?_, hrow⟩
        exact Nat.le_refl _
      · obtain ⟨hle, -⟩ := hrow.withTemps fun x hx => hgen x (List.mem_append_left _ hx)
        obtain ⟨st₁, st₂, hle', hrow'⟩ := ih hv fun x hx hx' =>
          hgen x (List.mem_append_right _ hx) (hx'.mono hle)
        exact ⟨st₁, st₂, Nat.le_trans hle hle', hrow'⟩

end Expand

namespace Function

variable {f g e : Function} {catalog : Option Inspector} {vs : List Visit} {st : Expansion}
  {l : Label} {b : Block} {row rest : List Stmt} {t callee : Var} {args : List Var}
  {kws : List (String × Var)}

/-! ### Calls in the whole function -/

/-- The variable is a temporary that is assigned the key of a dataset right in front of the
statement that names the dataset. -/
def Named (vs : List Visit) (z : Var) : Prop :=
  (∃ k, z.name = Var.tempName "dset_name" k) ∧ ∃ v ∈ vs, ∃ x base key,
    [.assign z (.const (.str key)), .assign x (.constItem base (.str key) none)] ∈ v.outs

/-- What a call that is put in can be given: a variable of the function, or a key. -/
def Usable (f : Function) (vs : List Visit) (z : Var) : Prop :=
  ¬ GeneratedFrom f.nextTemp z.name ∨ Named vs z

/-- A call that the function did not have is one of an entry point that is loaded. -/
theorem Expanded.loaded (h : f.Expanded catalog vs st e) (hnames : f.NamesApart)
    (hb : e.block? l = some b) (hbody : b.body = row ++ .call t callee args kws :: rest)
    (hnew : .call t callee args kws ∉ f.stmts) :
    ∃ p table, Loaded f.nextTemp (Usable f vs) row callee args kws p table := by
  obtain ⟨v, hv, rfl, rfl⟩ := h.exists_visit hb
  obtain ⟨before, front, back, hout, rfl⟩ := exists_of_flatten_eq hbody
  have hvars : ∀ v ∈ vs, ∀ s ∈ v.block.body, ∀ w ∈ s.vars, Usable f vs w :=
    fun v hv s hs w hw => Or.inl (hnames.vars (mem_stmts (h.visited v hv).1 hs) hw)
  obtain ⟨s, hs, st₁, st₂, hexp, hsourced, hle⟩ := h.visits.invariant
    (I := fun st => SourcedAll (Usable f vs) st.facts ∧ f.nextTemp ≤ st.nextTemp)
    (fun st v hv hst => ⟨hst.1.noteCopies _, hst.2⟩)
    (fun v hv st₁ s out st₂ hs hout hexp hst =>
      ⟨hexp.sourcedAll (hvars v hv s hs) (fun k t base key heq =>
          Or.inr ⟨⟨k, rfl⟩, v, hv, t, base, key, heq ▸ hout⟩) hst.1,
        Nat.le_trans hst.2 hexp.nextTemp_le⟩)
    ⟨sourcedAll_empty _, Nat.le_refl _⟩ v hv _ hout
  rcases hexp.callsLoaded (hvars v hv s hs) hsourced with ⟨heq, -⟩ | hcalls
  · have hmem : .call t callee args kws ∈ [s] := heq ▸ (by simp)
    refine absurd (mem_stmts (h.visited v hv).1 ?_) hnew
    rw [List.mem_singleton.mp hmem]
    exact hs
  · obtain ⟨p, table, hload⟩ := hcalls front t callee args kws back rfl
    exact ⟨p, table, (hload.append_row before).mono hle⟩

/-- The temporary takes the key of a dataset where the dataset is named: in the block of the
reference, behind what is assigned before it only and in front of what is assigned there and
behind it. -/
structure KeyedAt (f g : Function) (z : Var) : Prop where
  isKey : ∃ k, z.name = Var.tempName "dset_name" k
  place : ∃ l b b' x base key front rest front' rest',
    f.block? l = some b ∧ b.body = front ++ .assign x (.constItem base (.str key) none) :: rest ∧
    g.block? l = some b' ∧ b'.body = front' ++ .assign z (.const (.str key)) :: rest' ∧
    ∀ y, ¬ GeneratedFrom f.nextTemp y →
      (y ∈ definedNames front' → y ∈ definedNames front) ∧
        (y ∈ definedNames rest' → y = x.name ∨ y ∈ definedNames rest)

/-- What a call that is put in is given from elsewhere: a variable of the function, or the
key of a dataset. -/
def Supplied (f g : Function) (z : Var) : Prop :=
  ¬ GeneratedFrom f.nextTemp z.name ∨ f.KeyedAt g z

theorem KeyedAt.mem_definedNames {z : Var} (h : f.KeyedAt g z) :
    z.name ∈ definedNames g.stmts := by
  obtain ⟨l, b, b', x, base, key, front, rest, front', rest', -, -, hb', hbody', -⟩ := h.place
  refine SpmdArrays.mem_definedNames (mem_stmts hb' (s := .assign z (.const (.str key))) ?_) rfl
  simp [hbody']

theorem Expanded.keyedAt (h : f.Expanded catalog vs st e) (hnames : f.NamesApart) {z : Var}
    (hz : Named vs z) (hneeded : z.name ∈ e.neededNames) : f.KeyedAt e.withoutDead z := by
  obtain ⟨hkey, v, hv, x, base, key, hout⟩ := hz
  refine ⟨hkey, ?_⟩
  have hgen : ∀ x ∈ vs.flatMap fun v => definedNames v.block.body,
      ¬ GeneratedFrom f.nextTemp x := fun x hx =>
    hnames.defined x ((perm_definedNames h.order fun v hv => (h.visited v hv).1).mem_iff.mp hx)
  obtain ⟨st₀, st₃, hle, hrow⟩ := h.visits.exists_row hv hgen
  obtain ⟨front, s, rest, outs₁, outs₂, st₁, st₂, hblock, houts, hfront, hs, hrest⟩ :=
    hrow.exists_place hout
  obtain rfl := hs.eq_of_pair
  have hdefined : ∀ y ∈ definedNames v.block.body, ¬ GeneratedFrom st₀.nextTemp y :=
    fun y hy hy' => hgen y (List.mem_flatMap.mpr ⟨v, hv, hy⟩) (hy'.mono hle)
  rw [hblock, definedNames_append, definedNames_cons] at hdefined
  obtain ⟨hle₁, htemps⟩ := hfront.withTemps fun y hy => hdefined y (List.mem_append_left _ hy)
  have hle₂ := Nat.le_trans hle₁ hs.nextTemp_le
  obtain ⟨-, htemps'⟩ := hrest.withTemps fun y hy hy' =>
    hdefined y (List.mem_append_right _ (List.mem_append_right _ hy)) (hy'.mono hle₂)
  -- the assignment of the key stays, and so the block is cut in two there
  have hkept : (Stmt.assign z (.const (.str key))).isKept e.neededNames :=
    isKept_iff.mpr (Or.inr ⟨z, rfl, hneeded⟩)
  have hresult : v.result.body = outs₁.flatten ++ .assign z (.const (.str key)) ::
      (.assign x (.constItem base (.str key) none) :: outs₂.flatten) := by
    rw [Visit.result, houts, List.flatten_append, List.flatten_cons]
    rfl
  refine ⟨v.label, v.block, Block.withoutDead e.neededNames v.result, x, base, key, front, rest,
    outs₁.flatten.filter (Stmt.isKept e.neededNames),
    (.assign x (.constItem base (.str key) none) :: outs₂.flatten).filter
      (Stmt.isKept e.neededNames), (h.visited v hv).1, hblock, ?_, ?_, fun y hy => ⟨?_, ?_⟩⟩
  · rw [block?_withoutDead, (h.visited v hv).2]
    rfl
  · rw [Block.withoutDead, hresult, List.filter_append, List.filter_cons_of_pos hkept]
  · intro hmem
    have hmem' := (definedNames_filter_sublist _ _).subset hmem
    rw [← List.count_pos_iff, htemps.kept y fun hy' => hy (hy'.mono hle)] at hmem'
    exact List.count_pos_iff.mp hmem'
  · intro hmem
    have hmem' := (definedNames_filter_sublist _ _).subset hmem
    rw [definedNames_cons] at hmem'
    refine (List.mem_append.mp hmem').imp (fun hx => by simpa [Stmt.target?] using hx) fun hx => ?_
    rw [← List.count_pos_iff, htemps'.kept y fun hy' => hy (hy'.mono (Nat.le_trans hle hle₂))] at hx
    exact List.count_pos_iff.mp hx

theorem Expanded.loaded_withoutDead (h : f.Expanded catalog vs st e) (hnames : f.NamesApart)
    (hb : e.withoutDead.block? l = some b)
    (hbody : b.body = row ++ .call t callee args kws :: rest)
    (hnew : .call t callee args kws ∉ f.stmts) :
    ∃ p table, Loaded f.nextTemp (f.Supplied e.withoutDead) row callee args kws p table := by
  obtain ⟨b', row', rest', hb', hbody', rfl⟩ := exists_block_of_withoutDead hb hbody
  obtain ⟨p, table, hload⟩ := h.loaded hnames hb' hbody' hnew
  obtain ⟨hargs, hloads⟩ := hload.loads.withoutDead hb' hbody'
  refine ⟨p, table, { hload with loads := hloads, args := fun v hv => ?_ }⟩
  rcases hload.args v hv with hrow | hgiven | hnamed
  · exact Or.inl (mem_definedNames_filter (hargs v hv) hrow)
  · exact Or.inr (Or.inl hgiven)
  · exact Or.inr (Or.inr (h.keyedAt hnames hnamed (hargs v hv)))

theorem settled_of_expandFiles (hnames : f.NamesApart) (hg : f.expandFiles catalog = .ok g)
    {x : String} (hx : GeneratedFrom f.nextTemp x) : g.Settled x := by
  obtain ⟨vs, st, e, h, rfl⟩ := exists_expanded hg
  exact (h.settled_temp hnames hx).withoutDead

theorem loaded_of_expandFiles (hnames : f.NamesApart) (hg : f.expandFiles catalog = .ok g)
    (hb : g.block? l = some b) (hbody : b.body = row ++ .call t callee args kws :: rest)
    (hnew : .call t callee args kws ∉ f.stmts) :
    ∃ p table, Loaded f.nextTemp (f.Supplied g) row callee args kws p table := by
  obtain ⟨vs, st, e, h, rfl⟩ := exists_expanded hg
  exact h.loaded_withoutDead hnames hb hbody hnew

end Function

/-! ### Runs -/

namespace Expand

/-- What a call of the entry point can stop for, when its arguments are as many as they
should be: the device, a status, a value of the wrong kind, or an argument that is not there.
This is then a variable of the function, or the key of a dataset. -/
def Excuses (n : Nat) (p : EntryPoint) (args : List Var) : Stop RunError → Prop
  | .fault _ => True
  | .failed (.callFailed entry status) => entry = p.name ∧ status < 0
  | .failed (.typeError cause) => ∀ q, cause ≠ .arity q
  | .failed (.undefinedVariable x) =>
    (∃ v ∈ args, v.name = x) ∧ (GeneratedFrom n x → ∃ k, x = Var.tempName "dset_name" k)
  | .failed _ => False

theorem excuses_of_error {σ : Type} {d : Device σ} {m m' : Machine σ} {n : Nat} {t callee : Var}
    {args : List Var} {p : EntryPoint} {err : Stop RunError}
    (hcallee : m.env[callee.name]? = some (.entry p)) (harity : args.length = p.arity)
    (hargs : ∀ v ∈ args, m.env[v.name]? = none → GeneratedFrom n v.name →
      ∃ k, v.name = Var.tempName "dset_name" k)
    (h : Exec.stmt d (.call t callee args []) m = .error err m') : Excuses n p args err := by
  rw [Exec.stmt_call_apply, Exec.call_apply] at h
  cases hreq : m.env.request callee args [] with
  | error e =>
      rw [hreq] at h
      cases h
      rcases Env.request_error hcallee harity hreq with ⟨v, hv, hnone, rfl⟩ | ⟨cause, rfl, hcause⟩
      · exact ⟨⟨v, hv, rfl⟩, hargs v hv hnone⟩
      · exact hcause
  | ok q =>
      obtain ⟨-, hentry, -, -⟩ := Env.request_ok hreq
      cases hcallee.symm.trans hentry
      rw [hreq] at h
      simp only at h
      rcases ha : d.answer q.request m.device with ⟨fault | reply, s⟩
      · rw [ha] at h
        cases h
        trivial
      · rw [ha] at h
        simp only [Exec.settle] at h
        cases hs : checkStatus q.request.entry.name reply.status with
        | error e =>
            rw [hs] at h
            cases h
            obtain ⟨rfl, hneg⟩ := checkStatus_error hs
            exact ⟨rfl, hneg⟩
        | ok u =>
            rw [hs] at h
            cases h

end Expand

namespace Function

variable {σ : Type} {d : Device σ} {f g : Function} {catalog : Option Inspector}
  {argv : List Value} {s : σ} {rest : List Stmt} {term : Terminator} {m : Machine σ}
  {t callee table : Var} {args : List Var} {kws : List (String × Var)} {p : EntryPoint}

theorem Reaches.loaded (hreach : g.Reaches d argv s (.call t callee args kws :: rest) term m)
    (hnames : f.NamesApart) (hg : f.expandFiles catalog = .ok g)
    (hnew : .call t callee args kws ∉ f.stmts) :
    ∃ p table row, Loaded f.nextTemp (f.Supplied g) row callee args kws p table ∧
      .assign callee (.attr table p.name) ∈ g.stmts ∧ m.env[callee.name]? = some (.entry p) ∧
      ∀ v ∈ args, m.env[v.name]? = none → f.Supplied g v := by
  obtain ⟨l, b, row, m₀, hb, hbody, hrun⟩ := hreach.exists_front
  obtain ⟨p, table, hload⟩ := loaded_of_expandFiles hnames hg hb hbody hnew
  obtain ⟨r₁, r₂, r₃, hrow, -, -⟩ := hload.loads
  refine ⟨p, table, row, hload, Function.mem_stmts hb (by simp [hbody, hrow]),
    hload.loads.holdsEntry hrun, fun v hv hnone => ?_⟩
  refine (hload.args v hv).resolve_left fun hmem => ?_
  have hsome := Exec.isSome_of_body hrun (Or.inr hmem)
  rw [hnone] at hsome
  cases hsome

theorem Reaches.load (hreach : g.Reaches d argv s (.assign callee (.attr table p.name) :: rest)
      term m)
    (hcallee : g.Settled callee.name) (htable : g.Settled table.name) {l : Label} {b : Block}
    (hb : g.block? l = some b) {r₁ r₂ r₃ : List Stmt}
    (hbody : b.body = r₁ ++ .assign table (.global .ioAbi) ::
      (r₂ ++ .assign callee (.attr table p.name) :: r₃)) :
    Exec.stmt d (.assign callee (.attr table p.name)) m =
      .ok () { m with env := m.env.insert callee.name (.entry p) } := by
  obtain ⟨k, b', front, m₀, hb', hbody', hrun⟩ := hreach.exists_front
  have hassigns : (Stmt.assign callee (.attr table p.name)).Assigns callee.name := rfl
  -- the name is assigned at one place, so this is the place
  obtain rfl : l = k := hcallee.label_eq hb hb' (mem_definedNames (by simp [hbody]) hassigns)
    (mem_definedNames (by simp [hbody']) hassigns)
  cases hb.symm.trans hb'
  have hsplit : b.body = (r₁ ++ .assign table (.global .ioAbi) :: r₂) ++
      .assign callee (.attr table p.name) :: r₃ := by simp [hbody]
  obtain rfl := hcallee.front_eq hb hsplit hbody' rfl rfl
  have hbegins : g.Begins l (r₁ ++ .assign table (.global .ioAbi) :: r₂) :=
    ⟨b, hb, _, hsplit.symm⟩
  have hlast : table.name ∉ definedNames r₂ := (htable.not_mem_front hbegins rfl).2
  have hmodule : m.env[table.name]? = some (.module .ioAbi) :=
    Exec.holds_of_body hrun (fun env w hw => by cases hw; rfl) nofun hlast
  have heval : (Expr.attr table p.name).eval m.env = .ok (.entry p) := by
    rw [Expr.eval, Env.get, hmodule]
    simp [Value.attr, EntryPoint.ofName?_name, bind, Except.bind, Except.mapError]
  rw [Exec.stmt_assign_apply, heval]

theorem mem_definedNames_of_loaded {l : Label} {b : Block} {row : List Stmt}
    (h : Loaded f.nextTemp (f.Supplied g) row callee args kws p table)
    (hb : g.block? l = some b) (hbody : b.body = row ++ .call t callee args kws :: rest) {v : Var}
    (hv : v ∈ table :: callee :: args) (hgen : GeneratedFrom f.nextTemp v.name) :
    v.name ∈ definedNames g.stmts := by
  have hmem : ∀ x ∈ definedNames row, x ∈ definedNames g.stmts := fun x hx => by
    obtain ⟨u, hu, hux⟩ := exists_of_mem_definedNames hx
    exact SpmdArrays.mem_definedNames (mem_stmts hb (by simp [hbody, hu])) hux
  obtain ⟨r₁, r₂, r₃, hrow, -, -⟩ := h.loads
  rcases List.mem_cons.mp hv with rfl | hv
  · exact hmem _ (by simp [hrow, definedNames_append, definedNames_cons, Stmt.target?])
  · rcases List.mem_cons.mp hv with rfl | hv
    · exact hmem _ (by simp [hrow, definedNames_append, definedNames_cons, Stmt.target?])
    · rcases h.args v hv with hx | hgiven | hkeyed
      · exact hmem _ hx
      · exact absurd hgen hgiven
      · exact hkeyed.mem_definedNames

/-- Whatever call the expansion of a function has put in goes to an entry point that the block
has loaded, with as many arguments as the entry point takes; the callee, its table and the
temporaries among the arguments are each assigned once. No run stops at the loading of the
entry point, and at the call a run stops only for what the function and the device bring
about. -/
theorem inserted_calls_loaded (hnames : f.NamesApart) (hg : f.expandFiles catalog = .ok g)
    {l : Label} {b : Block} {row : List Stmt} (hb : g.block? l = some b)
    (hbody : b.body = row ++ .call t callee args kws :: rest)
    (hnew : .call t callee args kws ∉ f.stmts) :
    ∃ p table, Loaded f.nextTemp (f.Supplied g) row callee args kws p table ∧
      (∀ v ∈ table :: callee :: args, GeneratedFrom f.nextTemp v.name →
        (definedNames g.stmts).count v.name = 1) ∧
      ∀ (σ : Type) (d : Device σ) (argv : List Value) (s : σ),
        (∀ rest term m, g.Reaches d argv s (.assign callee (.attr table p.name) :: rest) term m →
          Exec.stmt d (.assign callee (.attr table p.name)) m =
            .ok () { m with env := m.env.insert callee.name (.entry p) }) ∧
        ∀ rest term m, g.Reaches d argv s (.call t callee args kws :: rest) term m →
          m.env[callee.name]? = some (.entry p) ∧
            ∀ err n, Exec.stmt d (.call t callee args kws) m = .error err n →
              Excuses f.nextTemp p args err := by
  obtain ⟨p, table, hload⟩ := loaded_of_expandFiles hnames hg hb hbody hnew
  have hcallee := settled_of_expandFiles hnames hg hload.temps.2
  have htable := settled_of_expandFiles hnames hg hload.temps.1
  obtain ⟨r₁, r₂, r₃, hrow, -, -⟩ := hload.loads
  have hsplit : b.body = r₁ ++ .assign table (.global .ioAbi) ::
      (r₂ ++ .assign callee (.attr table p.name) :: (r₃ ++ .call t callee args kws :: rest)) := by
    simp [hbody, hrow]
  have hloaded : .assign callee (.attr table p.name) ∈ g.stmts := mem_stmts hb (by simp [hsplit])
  refine ⟨p, table, hload, fun v hv hgen => ?_, fun σ d argv s => ⟨?_, ?_⟩⟩
  · have honce := (settled_of_expandFiles hnames hg hgen).once
    have hmem := List.count_pos_iff.mpr (mem_definedNames_of_loaded hload hb hbody hv hgen)
    omega
  · intro rest' term m hreach
    exact hreach.load hcallee htable hb hsplit
  · intro rest' term m hreach
    -- the call may stand at several places, but its callee is loaded at one
    obtain ⟨q, table', row', hload', hloaded', hentry, hargs⟩ := hreach.loaded hnames hg hnew
    have hsame := hcallee.eq_of_assigns hloaded hloaded' rfl rfl
    simp only [Stmt.assign.injEq, Expr.attr.injEq, true_and] at hsame
    obtain rfl := EntryPoint.name_inj hsame.2
    obtain rfl := hload.positional
    refine ⟨hentry, fun err n hstop => excuses_of_error hentry hload.arity ?_ hstop⟩
    intro v hv hnone hgen
    exact ((hargs v hv hnone).resolve_left (not_not_intro hgen)).isKey

/-! ### A read under a key -/

theorem storeAfterRead_namesApart : storeAfterRead.NamesApart where
  unused := tempsUnused_of_not_isTemp (by decide +kernel)
  params x hx := by
    rw [List.mem_singleton.mp hx]
    exact not_generatedFrom_of_head (by decide) _

/-- What stays of the function; only the front end is gone. -/
def storeAfterReadLeft : Block where
  body :=
    let c := storeAfterRead.fileScope storeAfterReadCatalog
    let d : DatasetRef := ⟨⟨0, "f", ⟨5, 1⟩⟩, temp c "dset_name" ⟨5, 1⟩ 4⟩
    let y : Var := ⟨0, "y", ⟨7, 1⟩⟩
    .assign ⟨0, "n", ⟨3, 1⟩⟩ (.const (.str "a.h5")) ::
      openCode c ⟨0, "f", ⟨4, 1⟩⟩ ⟨0, "n", ⟨4, 1⟩⟩ 0 none ++
      [.assign d.name (.const (.str "d")),
        .assign ⟨0, "x", ⟨5, 1⟩⟩ (.constItem ⟨0, "f", ⟨5, 1⟩⟩ (.str "d") none)] ++
      readCode c ⟨0, "x", ⟨6, 1⟩⟩ d ⟨.float64, 1⟩ 5 ++
      transferCode c .write d 1 (.attr y "shape") y ⟨7, 1⟩ 16
  term := .ret (some ⟨0, "x", ⟨8, 1⟩⟩)

theorem expandFiles_storeAfterRead :
    ∃ g, storeAfterRead.expandFiles storeAfterReadCatalog = .ok g ∧
      g.blocks = #[storeAfterReadLeft] ∧ g.params = ["y"] ∧ g.entry = 0 :=
  exists_expandFiles_blocks 10 #[{ storeAfterReadLeft with
      body := storeAfterReadBlock.body.take 2 ++ storeAfterReadLeft.body }]
    (order_eq_singleton rfl) (by decide +kernel) (by decide +kernel)

/-- The call for the read is given the key of the dataset, which stands where the dataset is
named, and a run that comes to the call finds its entry point. -/
theorem storeAfterRead_read_loaded :
    storeAfterRead.NamesApart ∧
      ∃ g row rest t callee args, storeAfterRead.expandFiles storeAfterReadCatalog = .ok g ∧
        g.block? 0 = some storeAfterReadLeft ∧
        storeAfterReadLeft.body = row ++ .call t callee args [] :: rest ∧
        .call t callee args [] ∉ storeAfterRead.stmts ∧ "$dset_name.4" ∈ args.map Var.name ∧
        ∃ p table, Loaded storeAfterRead.nextTemp (storeAfterRead.Supplied g) row callee args [] p
            table ∧
          ∀ (d : Device Store) argv s rest term m,
            g.Reaches d argv s (.call t callee args [] :: rest) term m →
              m.env[callee.name]? = some (.entry p) := by
  obtain ⟨g, hg, hblocks, -⟩ := expandFiles_storeAfterRead
  have hb : g.block? 0 = some storeAfterReadLeft := by simp [block?, hblocks]
  let c := storeAfterRead.fileScope storeAfterReadCatalog
  let loc : Loc := ⟨6, 1⟩
  let args : List Var := [⟨0, "f", ⟨5, 1⟩⟩, temp c "dset_name" ⟨5, 1⟩ 4, temp c "h5_ndims" loc 9,
    temp c "h5_starts" loc 11, temp c "h5_counts" loc 12, temp c "const_zero" loc 10,
    ⟨0, "x", loc⟩]
  have hbody : storeAfterReadLeft.body = storeAfterReadLeft.body.take 19 ++
      .call (temp c "h5_err" loc 13) (entryVar c .read loc 14) args [] ::
        storeAfterReadLeft.body.drop 20 := by
    decide +kernel
  have hnew : .call (temp c "h5_err" loc 13) (entryVar c .read loc 14) args [] ∉
      storeAfterRead.stmts := by
    decide +kernel
  obtain ⟨p, table, hload, -, hruns⟩ :=
    inserted_calls_loaded storeAfterRead_namesApart hg hb hbody hnew
  refine ⟨storeAfterRead_namesApart, g, _, _, _, _, args, hg, hb, hbody, hnew, by decide +kernel, p,
    table, hload, ?_⟩
  intro d argv s rest term m hreach
  exact ((hruns Store d argv s).2 rest term m hreach).1

end Function

end SpmdArrays
