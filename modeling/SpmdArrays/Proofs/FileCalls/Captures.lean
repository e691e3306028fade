import SpmdArrays.Proofs.FileCalls.TransferOperands

/-!
The variables that the code put in for a statement can change. Run in full or without what
became dead, to its end or only up to a stop, it leaves every variable alone but the one that
the statement assigns and the temporaries that were taken for it. These are named after a
fixed list of stems and numbered on from the counter of the function, whatever the variables
of the function are called: a parameter or a variable that already has such a name loses what
it holds.
-/

namespace SpmdArrays

namespace Exec

variable {σ : Type} {d : Device σ} {m n : Machine σ} {x : String}

/-- Only a read hands something back, and it goes to the last argument. -/
theorem dest_of_request {env : Env} {callee : Var} {args : List Var} {kws : List (String × Var)}
    {p : Prepared} (hp : env.request callee args kws = .ok p) :
    p.dest = none ∨ p.request.entry = .read ∧
      ∃ v a, args.getLast? = some v ∧ p.dest = some (v.name, a) := by
  obtain ⟨values, -, -, hprepares⟩ := Env.request_ok hp
  generalize p.request.entry = e at hprepares ⊢
  cases hprepares with
  | read t rank start count stride a =>
      cases hlast : args.getLast? with
      | none => exact Or.inl rfl
      | some v => exact Or.inr ⟨rfl, v, a, rfl, rfl⟩
  | _ => exact Or.inl rfl

theorem Runs.getElem?_of_entry {t callee : Var} {args : List Var} {kws : List (String × Var)}
    {e : EntryPoint} (hrun : Runs d m (.call t callee args kws) n)
    (hcallee : m.env[callee.name]? = some (.entry e)) (ht : t.name ≠ x)
    (hlast : e = .read → ∀ v, args.getLast? = some v → v.name ≠ x) : n.env[x]? = m.env[x]? := by
  cases hrun with
  | @call _ _ _ _ p reply s hp ha hs =>
      obtain ⟨values, hentry, -, -⟩ := Env.request_ok hp
      cases hentry.symm.trans hcallee
      rw [Env.getElem?_insert_of_ne _ ht, afterCall]
      rcases dest_of_request hp with hdest | ⟨hread, v, a, hv, hdest⟩
      · rw [hdest]
      · rw [hdest]
        exact Env.getElem?_insert_of_ne _ (hlast hread v hv) _

end Exec

namespace Expand

/-! ### The code that is put in -/

/-- A row that changes only what it assigns and what the statement assigns. It is brief,
except that a call of an entry point that the row has loaded may end it; if that is a read,
its buffer is what the statement assigns. -/
inductive Contained (s : Stmt) : List Stmt → Prop
  | brief {row : List Stmt} (hrow : ∀ u ∈ row, u.Brief) : Contained s row
  | transfer {row : List Stmt} {status callee table : Var} {args : List Var} {e : EntryPoint}
      (hrow : ∀ u ∈ row, u.Brief) (hloads : LoadsEntry row callee table e)
      (hbuffer : e = .read → ∀ v, args.getLast? = some v → s.Assigns v.name) :
      Contained s (row ++ [.call status callee args []])

variable {c : FileScope} {st st' : Expansion} {s : Stmt} {row out : List Stmt}

theorem brief_callCode (front : List Stmt) {e : EntryPoint} {args : List Var} {t : Var} {n : Nat}
    (hfront : ∀ u ∈ front, u.Brief) (hargs : args.length < 7) :
    ∀ u ∈ front ++ callCode c e args t n, u.Brief := by
  intro u hu
  rcases List.mem_append.mp hu with hu | hu
  · exact hfront u hu
  · rcases List.mem_append.mp hu with hu | hu
    · exact (aside_loadCode (Nat.le_refl n) u hu).1
    · cases List.mem_singleton.mp hu
      exact .call _ _ _ hargs

theorem brief_openCode {t name : Var} {n : Nat} {mode : Option Var} :
    ∀ u ∈ openCode c t name n mode, u.Brief := by
  cases mode with
  | some mode =>
      exact brief_callCode [_] (List.forall_mem_singleton.mpr (.assign ..)) (by simp)
  | none =>
      refine brief_callCode [_, _] ?_ (by simp)
      exact List.forall_mem_cons.mpr ⟨.assign .., List.forall_mem_singleton.mpr (.assign ..)⟩

theorem Expands.contained (h : Expands c st s out st') : out = [s] ∨ Contained s out := by
  cases h with
  | datasetKey t base key hf =>
      exact Or.inr (.brief (List.forall_mem_cons.mpr
        ⟨.assign .., List.forall_mem_singleton.mpr (.assign ..)⟩))
  | read t base index indexVar d type hf hd hi ht =>
      rw [readCode_eq]
      refine Or.inr (.transfer brief_fillCode (loadsEntry_fillCode ..) fun _ v hv => ?_)
      cases hv
      rfl
  | openFile t callee args kws name hc hn => exact Or.inr (.brief brief_openCode)
  | closeFile t callee args kws file ho hc =>
      exact Or.inr (.brief (brief_callCode [] (by simp) (by simp)))
  | createDataset t callee args kws file name shape elem dims ho hx hc hn hs' he hd =>
      exact Or.inr (.brief (brief_callCode [_]
        (List.forall_mem_singleton.mpr (.assign ..)) (by simp)))
  | createGroup t callee args kws file name ho hx hy hc hn =>
      exact Or.inr (.brief (brief_callCode [] (by simp) (by simp)))
  | write t index value d rank hf hd hi hr =>
      obtain ⟨row, status, callee, table, args, hcode, happroach⟩ :=
        approach_writeCode t value index rank _ _
      rw [hcode]
      exact Or.inr (.transfer happroach.brief happroach.loads fun hread => by cases hread)
  -- every other statement stays
  | _ => exact Or.inl rfl

/-- The code changes nothing else, whether it is run to its end or stops. -/
theorem Contained.getElem?_of_final (h : Contained s row) {x : String} (hs : ¬ s.Assigns x)
    (hx : x ∉ definedNames row) {σ : Type} (d : Device σ) (m : Machine σ) :
    (Exec.final (Exec.body d row m)).env[x]? = m.env[x]? := by
  cases h with
  | brief hrow => exact Exec.getElem?_of_final_brief hrow hx
  | @transfer row status callee table args e hrow hloads hbuffer =>
      rw [definedNames_append, List.mem_append, not_or] at hx
      have hstatus : status.name ≠ x := fun heq => hx.2 (by simp [definedNames, Stmt.target?, heq])
      have hfront := Exec.getElem?_of_final_brief (d := d) (m := m) hrow hx.1
      rw [Exec.body_append_apply]
      cases hrun : Exec.body d row m with
      | error err k =>
          rw [hrun] at hfront
          exact hfront
      | ok _ k =>
          rw [hrun] at hfront
          dsimp only [Exec.final] at hfront ⊢
          rw [← hfront, Exec.body_cons_apply]
          cases hcall : Exec.stmt d (.call status callee args []) k with
          | error err k' => exact congrArg (fun env => env[x]?) (Exec.env_of_stmt_error hcall)
          | ok _ k' =>
              refine (Exec.runs_of_stmt hcall).getElem?_of_entry (hloads.holdsEntry hrun) hstatus ?_
              exact fun hread v hv heq => hs (heq ▸ hbuffer hread v hv)

/-- A call needs its entry point, so the code stays contained when dead statements are gone. -/
theorem Contained.filter (h : Contained s out) {e : Function} {l : Label} {b : Block}
    {before after : List Stmt} (hb : e.block? l = some { b with body := before ++ out ++ after }) :
    Contained s (out.filter (Stmt.isKept e.neededNames)) := by
  cases h with
  | brief hrow => exact .brief fun u hu => hrow u (List.mem_filter.mp hu).1
  | @transfer row status callee table args p hrow hloads hbuffer =>
      have hcall : (Stmt.call status callee args []).isKept e.neededNames :=
        Function.isKept_iff.mpr (Or.inl rfl)
      have hcut : before ++ (row ++ [.call status callee args []]) ++ after =
          before ++ row ++ .call status callee args [] :: after := by simp
      obtain ⟨hcallee, htable, -⟩ := hloads.names_needed hb hcut
      rw [List.filter_append, List.filter_cons_of_pos hcall, List.filter_nil]
      exact .transfer (fun u hu => hrow u (List.mem_filter.mp hu).1) (hloads.filter hcallee htable)
        hbuffer

/-! ### The counter -/

theorem nextTemp_le_of_stmts {ss : List Stmt} (h : stmts c ss st = .ok (out, st')) :
    st.nextTemp ≤ st'.nextTemp := by
  induction ss generalizing st out with
  | nil =>
      cases h
      exact Nat.le_refl _
  | cons s ss ih =>
      obtain ⟨o₁, st₁, o₂, hs, hss, rfl⟩ := stmts_cons_ok h
      exact Nat.le_trans (expands_of_stmt hs).nextTemp_le (ih hss)

theorem Visits.nextTemp_le {vs : List Visit} (h : Visits c st vs st') :
    st.nextTemp ≤ st'.nextTemp :=
  h.keeps (I := fun st₁ => st.nextTemp ≤ st₁.nextTemp) (fun _ _ hle => hle)
    (fun _ _ _ _ _ _ _ hs hle => Nat.le_trans hle hs.nextTemp_le) (Nat.le_refl _)

/-- The name of a temporary that is taken while the counter goes from one number to another. -/
def TakenName (lo hi : Nat) (x : String) : Prop :=
  ∃ stem ∈ tempStems, ∃ k, lo ≤ k ∧ k < hi ∧ x = Var.tempName stem k

/-! ### What stands for the statements of a block -/

structure Substitute where
  stmt : Stmt
  code : List Stmt
  temps : List (String × Nat)

def Substitute.kept (r : Substitute) (needed : Std.TreeSet String) : List Stmt :=
  r.code.filter (Stmt.isKept needed)

/-- The code comes from the statement, while the counter goes through some of the numbers
between the given ones. -/
structure Substitute.Emitted (c : FileScope) (lo hi : Nat) (r : Substitute) : Prop where
  /-- There is one temporary for each number that the counter goes through. -/
  emitted : ∃ st st', Expand.stmt c r.stmt st = .ok (r.code, st') ∧
    st'.nextTemp = st.nextTemp + r.temps.length ∧
    (r.temps.map Prod.snd).Perm (List.range' st.nextTemp r.temps.length)
  taken : ∀ x ∈ tempNames r.temps, TakenName lo hi x
  assigned : ∀ x, x ∈ definedNames r.code ↔ r.stmt.Assigns x ∨ x ∈ tempNames r.temps
  stays : r.code = [r.stmt] → r.temps = []

/-- The code leaves the variable alone, in full or as far as it is kept, on whatever device and
from whatever machine it is run, and wherever it stops. -/
def Substitute.LeavesAlone (needed : Std.TreeSet String) (r : Substitute) (x : String) : Prop :=
  ∀ ss ∈ [r.code, r.kept needed], ∀ (σ : Type) (dev : Device σ) (m : Machine σ),
    (Exec.final (Exec.body dev ss m)).env[x]? = m.env[x]?

theorem exists_emitted {lo hi : Nat} (h : stmt c s st = .ok (out, st')) (hlo : lo ≤ st.nextTemp)
    (hhi : st'.nextTemp ≤ hi) :
    ∃ r : Substitute, r.stmt = s ∧ r.code = out ∧ r.Emitted c lo hi := by
  obtain ⟨ps, qs, htemps, hnames⟩ := (expands_of_stmt h).exists_temps
  refine ⟨⟨s, out, ps ++ qs⟩, rfl, rfl, ⟨st, st', h, htemps.nextTemp, htemps.numbers⟩, ?_, ?_, ?_⟩
  · intro x hx
    obtain ⟨p, hp, rfl⟩ := List.mem_map.mp hx
    have hnumber := htemps.numbers.mem_iff.mp (List.mem_map_of_mem hp)
    rw [List.mem_range'_1, ← htemps.nextTemp] at hnumber
    exact ⟨p.1, htemps.stems p hp, p.2, by omega, by omega, rfl⟩
  · intro x
    rw [hnames, tempNames_append]
    simp only [List.mem_append, Option.mem_toList]
    exact or_assoc.trans or_left_comm
  · intro (hout : out = [s])
    subst hout
    -- the one statement assigns at most the one name that is no temporary
    have hlength := congrArg List.length hnames
    have hnone : (definedNames []).length = 0 := rfl
    refine List.eq_nil_of_length_eq_zero ?_
    rw [definedNames_cons] at hlength
    simp only [tempNames, List.length_append, List.length_map] at hlength ⊢
    omega

theorem exists_substitutes {lo hi : Nat} {ss : List Stmt} (h : stmts c ss st = .ok (out, st'))
    (hlo : lo ≤ st.nextTemp) (hhi : st'.nextTemp ≤ hi) :
    ∃ rows : List Substitute, rows.map Substitute.stmt = ss ∧ rows.flatMap Substitute.code = out ∧
      ∀ r ∈ rows, r.Emitted c lo hi := by
  induction ss generalizing st out with
  | nil =>
      cases h
      exact ⟨[], rfl, rfl, fun r hr => absurd hr List.not_mem_nil⟩
  | cons s ss ih =>
      obtain ⟨o₁, st₁, o₂, hs, hss, rfl⟩ := stmts_cons_ok h
      have hle : st.nextTemp ≤ st₁.nextTemp := (expands_of_stmt hs).nextTemp_le
      obtain ⟨r, rfl, rfl, hr⟩ :=
        exists_emitted hs hlo (Nat.le_trans (nextTemp_le_of_stmts hss) hhi)
      obtain ⟨rows, rfl, rfl, hrows⟩ := ih hss (Nat.le_trans hlo hle)
      exact ⟨r :: rows, rfl, List.flatMap_cons, List.forall_mem_cons.mpr ⟨hr, hrows⟩⟩

/-- What is put in leaves alone what neither the statement nor a temporary of it assigns. -/
theorem Substitute.Emitted.leavesAlone {lo hi : Nat} {r : Substitute} (h : r.Emitted c lo hi)
    (hstays : r.code ≠ [r.stmt]) {e : Function} {l : Label} {b : Block} {before after : List Stmt}
    (hb : e.block? l = some { b with body := before ++ r.code ++ after }) {x : String}
    (hx : ¬ r.stmt.Assigns x) (hx' : x ∉ tempNames r.temps) :
    r.LeavesAlone e.neededNames x := by
  obtain ⟨st, st', hstmt, -⟩ := h.emitted
  have hcode : Contained r.stmt r.code := (expands_of_stmt hstmt).contained.resolve_left hstays
  have hnot : x ∉ definedNames r.code := fun hmem => ((h.assigned x).mp hmem).elim hx hx'
  intro ss hss σ dev m
  rcases List.mem_pair.mp hss with rfl | rfl
  · exact hcode.getElem?_of_final hx hnot dev m
  · exact (hcode.filter hb).getElem?_of_final hx
      (fun hmem => hnot ((Function.definedNames_filter_sublist _ _).subset hmem)) dev m

end Expand

namespace Function

open Expand

variable {f g : Function} {catalog : Option Inspector} {l : Label} {b : Block}

theorem exists_stmts (h : f.expandFiles catalog = .ok g) (hb : f.block? l = some b) :
    ∃ (e : Function) (st st' : Expansion) (out : List Stmt), g = e.withoutDead ∧
      e.block? l = some { b with body := out } ∧
      Expand.stmts (f.fileScope catalog) b.body st = .ok (out, st') ∧
      f.nextTemp ≤ st.nextTemp ∧ st'.nextTemp ≤ g.nextTemp := by
  obtain ⟨bs, final, hbs, rfl⟩ := expandFiles_ok h
  obtain ⟨ls, ls', bs₁, st₁, st₂, out, horder, hbefore, hbody, hafter⟩ := exists_split hbs hb
  have hnodup := f.order_nodup
  rw [horder] at hnodup
  obtain ⟨hls, hls', -⟩ := List.nodup_append'.mp hnodup
  obtain ⟨vs, hvs, -⟩ := visits_of_blocks hbefore hls
  obtain ⟨vs', hvs', -⟩ := visits_of_blocks hafter (List.nodup_cons.mp hls').2
  exact ⟨{ f with blocks := bs, nextTemp := final.nextTemp }, _, st₂, out, rfl,
    getElem?_of_split horder hb hbefore hafter, hbody, hvs.nextTemp_le, hvs'.nextTemp_le⟩

/-- A block of the function that is left is made of what is put in for each statement of the
block, in the same order, as far as it is needed. What is put in assigns what the statement
assigned and the temporaries that are taken for it, one for each number that the counter goes
through. Their names are determined by their stems and the counter alone, so nothing keeps
them from being names of the function; but no name outside the range of the counter is among
them. A statement that stays takes none, and whatever else is put in for a statement leaves
every other variable alone. -/
theorem names_changed_by_inserted (h : f.expandFiles catalog = .ok g)
    (hb : f.block? l = some b) :
    ∃ (needed : Std.TreeSet String) (rows : List Substitute),
      rows.map Substitute.stmt = b.body ∧
      g.block? l = some { b with body := rows.flatMap (Substitute.kept · needed) } ∧
      ∀ r ∈ rows, r.Emitted (f.fileScope catalog) f.nextTemp g.nextTemp ∧
        (r.code = [r.stmt] ∨ ∀ x, ¬ r.stmt.Assigns x → x ∉ tempNames r.temps →
          r.LeavesAlone needed x) := by
  obtain ⟨e, st, st', out, rfl, he, hstmts, hlo, hhi⟩ := exists_stmts h hb
  obtain ⟨rows, hrows, rfl, hemitted⟩ := exists_substitutes hstmts hlo hhi
  refine ⟨e.neededNames, rows, hrows, ?_, fun r hr => ⟨hemitted r hr, ?_⟩⟩
  · rw [block?_withoutDead, he, Option.map_some, Block.withoutDead, List.filter_flatMap]
    rfl
  · obtain ⟨before, after, rfl⟩ := List.append_of_mem hr
    rw [List.flatMap_append, List.flatMap_cons, ← List.append_assoc] at he
    by_cases hstays : r.code = [r.stmt]
    · exact Or.inl hstays
    · exact Or.inr fun x hx hx' => (hemitted r hr).leavesAlone hstays he hx hx'

/-! ### A parameter that is named like a temporary -/

def capturedParamCall : Stmt :=
  .call ⟨0, "f", ⟨4, 1⟩⟩ ⟨0, "open", ⟨4, 1⟩⟩ [⟨0, "n", ⟨4, 1⟩⟩] []

def capturedParamBlock : Block where
  body := [
    .assign ⟨0, "m", ⟨1, 1⟩⟩ (.global .h5py),
    .assign ⟨0, "open", ⟨2, 1⟩⟩ (.attr ⟨0, "m", ⟨2, 1⟩⟩ "File"),
    .assign ⟨0, "n", ⟨3, 1⟩⟩ (.const (.str "a.h5")),
    capturedParamCall]
  term := .ret (some ⟨0, "$const_mode.0", ⟨5, 1⟩⟩)

def capturedParam : Function where
  name := "main"
  params := ["$const_mode.0"]
  blocks := #[capturedParamBlock]

def capturedParamCatalog : Catalog := BySource.empty.insert "a.h5" "d" ⟨.float64, [2]⟩

/-- What is put in for the call, and the statement in front of it that stays. -/
def capturedParamCode : List Stmt :=
  .assign ⟨0, "n", ⟨3, 1⟩⟩ (.const (.str "a.h5")) ::
    openCode (capturedParam.fileScope (some capturedParamCatalog.inspect)) ⟨0, "f", ⟨4, 1⟩⟩
      ⟨0, "n", ⟨4, 1⟩⟩ 0 none

theorem exists_expandFiles_capturedParam :
    ∃ g, capturedParam.expandFiles (some capturedParamCatalog.inspect) = .ok g ∧
      g.blocks = #[{ capturedParamBlock with body := capturedParamCode }] ∧
      g.params = ["$const_mode.0"] ∧ g.entry = 0 :=
  exists_expandFiles_blocks 10 #[{ capturedParamBlock with
      body := capturedParamBlock.body.take 2 ++ capturedParamCode }]
    (order_eq_singleton rfl) (by decide +kernel) (by decide +kernel)

/-- What stands for the call that opens the file leaves the name of the file alone. -/
theorem capturedParam_name_kept :
    ∃ (g : Function) (needed : Std.TreeSet String) (rows : List Substitute) (r : Substitute),
      capturedParam.expandFiles (some capturedParamCatalog.inspect) = .ok g ∧
      g.block? 0 =
        some { capturedParamBlock with body := rows.flatMap (Substitute.kept · needed) } ∧
      r ∈ rows ∧ r.stmt = capturedParamCall ∧ r.LeavesAlone needed "n" := by
  obtain ⟨g, hg, hblocks, -⟩ := exists_expandFiles_capturedParam
  obtain ⟨needed, rows, hrows, hbody, hall⟩ := names_changed_by_inserted hg (l := 0) rfl
  have hcall : capturedParamCall ∈ rows.map Substitute.stmt := by
    rw [hrows]
    decide
  obtain ⟨r, hr, hstmt⟩ := List.mem_map.mp hcall
  obtain ⟨hemitted, hchanged⟩ := hall r hr
  refine ⟨g, needed, rows, r, hg, hbody, hr, hstmt, ?_⟩
  refine hchanged.resolve_left (fun hstays => ?_) "n" ?_ fun hmem => ?_
  · -- the call has an effect, so it would still be in the block
    have hkept : capturedParamCall ∈ r.kept needed := by
      rw [Substitute.kept, hstays, hstmt]
      exact List.mem_filter.mpr ⟨List.mem_singleton_self _, rfl⟩
    have hmem : capturedParamCall ∈ rows.flatMap (Substitute.kept · needed) :=
      List.mem_flatMap.mpr ⟨r, hr, hkept⟩
    rw [block?, hblocks] at hbody
    have hcode : capturedParamCode = rows.flatMap (Substitute.kept · needed) :=
      congrArg Block.body (Option.some.inj hbody)
    rw [← hcode] at hmem
    revert hmem
    decide +kernel
  · simp [hstmt, capturedParamCall, Stmt.Assigns, Stmt.target?]
  · obtain ⟨stem, -, k, -, -, heq⟩ := hemitted.taken "n" hmem
    exact not_generatedFrom_of_head (by decide) 0 ⟨stem, k, Nat.zero_le k, heq⟩

theorem run_of_body_ok {σ : Type} {dev : Device σ} {args : List Value} {t : σ} {m : Machine σ}
    {v : Option Value} (hb : f.block? f.entry = some b)
    (h : Exec.body dev b.body (f.begin args t) = .ok () m)
    (hnext : Exec.Next.of m.env b.term = .ok (.done v)) :
    f.run dev args t = (.ok v, m.device) := by
  rw [run_eq_outcome, stepLimit, Exec.blocks_succ_apply, hb]
  simp only [h, hnext]
  rfl

def textAfter? (x : String) :
    EStateM.Result (Stop RunError) (Machine Store) Unit → Option String
  | .ok _ m =>
    match m.env[x]? with
    | some (.str text) => some text
    | _ => none
  | .error _ _ => none

theorem exists_of_textAfter? {r : EStateM.Result (Stop RunError) (Machine Store) Unit}
    {x t : String} (h : textAfter? x r = some t) :
    ∃ m, r = .ok () m ∧ m.env[x]? = some (.str t) := by
  cases r with
  | error err m => cases h
  | ok u m =>
      dsimp only [textAfter?] at h
      split at h
      · next hx =>
          cases h
          exact ⟨m, rfl, hx⟩
      · cases h

/-- The parameter is assigned nowhere, and still the mode of the file is returned for it. -/
theorem capturedParam_returns_mode :
    "$const_mode.0" ∉ definedNames capturedParam.stmts ∧
      ∃ g, capturedParam.expandFiles (some capturedParamCatalog.inspect) = .ok g ∧
        (g.run Store.device [.int 7] (.ofCatalog capturedParamCatalog)).1 =
          .ok (some (.str "r")) := by
  obtain ⟨g, hg, hblocks, hparams, hentry⟩ := exists_expandFiles_capturedParam
  have hb : g.block? g.entry = some { capturedParamBlock with body := capturedParamCode } := by
    rw [block?, hblocks, hentry]
    rfl
  obtain ⟨m, hm, hx⟩ := exists_of_textAfter? (x := "$const_mode.0") (t := "r")
    (r := Exec.body Store.device capturedParamCode
      ⟨Env.ofArgs ["$const_mode.0"] [.int 7], .ofCatalog capturedParamCatalog⟩) (by decide +kernel)
  refine ⟨by decide +kernel, g, hg, ?_⟩
  rw [run_of_body_ok hb (by rw [begin, hparams]; exact hm) (v := some (.str "r"))]
  show Exec.Next.of m.env (.ret (some ⟨0, "$const_mode.0", ⟨5, 1⟩⟩)) = _
  rw [Exec.Next.of, Env.get, hx]
  rfl

end Function

end SpmdArrays
