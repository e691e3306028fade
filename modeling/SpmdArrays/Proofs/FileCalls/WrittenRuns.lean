import SpmdArrays.Proofs.FileCalls.AsWritten

/-!
What the statements of the front end do when they run as they are written, said by the
meaning of the name in front of them; and how such a run is compared with a run of the
statements that stand for it, piece by piece: looking at a variable, asking the device.
A run that stops before it has asked for anything is covered by every other run.
-/

namespace SpmdArrays

namespace Front

section

variable {σ : Type} {d : Device σ} {c : FileScope} {facts : Facts} {m : FrontMachine σ}
  {t base : Var}

theorem get_bind (k : FrontMachine σ → Front σ Unit) (m : FrontMachine σ) :
    ((get : Front σ (FrontMachine σ)) >>= k) m = k m m := rfl

theorem value_apply (v : Var) (m : FrontMachine σ) : value v m = ofExcept (m.env.get v) m := rfl

theorem argument_some (v : Var) : (argument (some v) : Front σ Value) = value v := rfl

/-! ### Assignments -/

theorem stmt_opener (h : m.meaning? base = some .frontEnd) :
    stmt d c facts (.assign t (.attr base "File")) m = .ok () (m.bind t none (some .opener)) := by
  rw [stmt, assign, get_bind]
  simp only [h, if_true]
  rfl

theorem stmt_method {method : Expand.Method} (h : m.meaning? base = some .file) :
    stmt d c facts (.assign t (.attr base method.name)) m =
      (value base >>= fun file => bind t none (some (.method method file))) m := by
  rw [stmt, assign, get_bind]
  simp only [h, Expand.Method.ofName?_name]

theorem stmt_constItem {index : Literal} {indexVar : Option Var}
    (h : m.meaning? base = some .file) :
    stmt d c facts (.assign t (.constItem base index indexVar)) m =
      (value base >>= fun file => bind t none (some (.dataset file (.ofLiteral index)))) m := by
  rw [stmt, assign, get_bind]
  simp only [h]

theorem stmt_item {index : Var} (h : m.meaning? base = some .file) :
    stmt d c facts (.assign t (.item base index)) m =
      (value base >>= fun file => value index >>= fun key =>
        bind t none (some (.dataset file key))) m := by
  rw [stmt, assign, get_bind]
  simp only [h]

theorem stmt_read {index : Literal} {indexVar : Option Var} {file key : Value} {type : ArrayType}
    (h : m.meaning? base = some (.dataset file key)) (hi : index.isFullSlice = true)
    (ht : c.readType? facts t (.constItem base index indexVar) = some type) :
    stmt d c facts (.assign t (.constItem base index indexVar)) m =
      (serve (d.readWhole file key type) >>= fun a => bind t (some (.array a)) none) m := by
  rw [stmt, assign, get_bind]
  simp only [h, hi, if_true, ht]
  rfl

theorem stmt_copy {source : Var} {meaning : Meaning} (h : m.meaning? source = some meaning)
    (ht : meaning.travels = true) :
    stmt d c facts (.assign t (.copy source)) m =
      .ok () (m.bind t m.env[source.name]? (some meaning)) := by
  rw [stmt, assign, get_bind]
  simp only [h, ht, if_true]
  rfl

theorem stmt_attr_plain {name : String}
    (h : m.meaning? base = none ∨ (∃ file key, m.meaning? base = some (.dataset file key)) ∨
      (m.meaning? base = some .file ∧ Expand.Method.ofName? name = none) ∨
      m.meaning? base = some .frontEnd ∧ name ≠ "File") :
    stmt d c facts (.assign t (.attr base name)) m = plain d (.assign t (.attr base name)) m := by
  rw [stmt, assign, get_bind]
  rcases h with h | ⟨file, key, h⟩ | ⟨h, hname⟩ | ⟨h, hname⟩
  · simp only [h]
  · simp only [h]
  · simp only [h, hname]
  · simp only [h, if_neg hname]

theorem stmt_assign_plain {e : Expr} (hglobal : e ≠ .global .h5py)
    (h : ∀ v, (Stmt.assign t e).head? = some v → m.meaning? v = none) :
    stmt d c facts (.assign t e) m = plain d (.assign t e) m := by
  cases e with
  | global name =>
      cases name with
      | h5py => exact absurd rfl hglobal
      | _ => rfl
  | attr base name => exact stmt_attr_plain (Or.inl (h base rfl))
  | constItem base index indexVar =>
      rw [stmt, assign, get_bind]
      simp only [h base rfl]
  | item base index =>
      rw [stmt, assign, get_bind]
      simp only [h base rfl]
  | copy source =>
      rw [stmt, assign, get_bind]
      simp only [h source rfl]
  | _ => rfl

/-! ### Calls and stores -/

variable {callee : Var} {args : List Var} {kws : List (String × Var)}

theorem stmt_openFile {name : Var} (h : m.meaning? callee = some .opener)
    (hn : (args[0]? <|> kws.lookup "name") = some name) :
    stmt d c facts (.call t callee args kws) m =
      (value name >>= fun name => argumentOr (args[1]? <|> kws.lookup "mode") (.str "r") >>=
        fun mode => request d t .openFile [name, mode, .int 0] (some .file)) m := by
  rw [stmt, call, get_bind]
  simp only [h, hn, argument_some]

theorem stmt_closeFile {file : Value} (h : m.meaning? callee = some (.method .close file)) :
    stmt d c facts (.call t callee args kws) m = request d t .closeFile [file] none m := by
  rw [stmt, call, get_bind]
  simp only [h]

theorem stmt_createDataset {file : Value} {name shape elem : Var}
    (h : m.meaning? callee = some (.method .createDataset file))
    (hn : (args[0]? <|> kws.lookup "name") = some name)
    (hs : (args[1]? <|> kws.lookup "shape") = some shape)
    (he : (kws.lookup "dtype" <|> args[2]?) = some elem) :
    stmt d c facts (.call t callee args kws) m =
      (value name >>= fun name => value shape >>= fun shape => value elem >>= fun elem =>
        ofExcept shape.rank >>= fun rank =>
          request d t .createDataset [file, name, rank, shape, elem]
            (some (.dataset file name))) m := by
  rw [stmt, call, get_bind]
  simp only [h, hn, hs, he, argument_some]

theorem stmt_createGroup {file : Value} {name : Var}
    (h : m.meaning? callee = some (.method .createGroup file))
    (hn : (args[0]? <|> kws.lookup "name") = some name) :
    stmt d c facts (.call t callee args kws) m =
      (value name >>= fun name => request d t .createGroup [file, name] (some .file)) m := by
  rw [stmt, call, get_bind]
  simp only [h, hn, argument_some]

theorem stmt_call_plain
    (h : m.meaning? callee = none ∨ (∃ file key, m.meaning? callee = some (.dataset file key)) ∨
      m.meaning? callee = some .file) :
    stmt d c facts (.call t callee args kws) m = plain d (.call t callee args kws) m := by
  rw [stmt, call, get_bind]
  rcases h with h | ⟨file, key, h⟩ | h <;> simp only [h]

theorem stmt_write {index : Literal} {source : Var} {file key : Value} {rank : Nat}
    (h : m.meaning? t = some (.dataset file key)) (hi : index.isFullSlice = true)
    (hr : c.writeRank? facts t source = some rank) :
    stmt d c facts (.store t index source) m =
      (value source >>= fun source =>
        serve (d.writeWhole file key rank source) >>= fun _ => pure ()) m := by
  rw [stmt, store, get_bind]
  simp only [h, hi, if_true, hr]
  rfl

theorem stmt_store_plain {index : Literal} {source : Var} (h : m.meaning? t = none) :
    stmt d c facts (.store t index source) m = plain d (.store t index source) m := by
  rw [stmt, store, get_bind]
  simp only [h]

end

end Front

/-! ### Keys that are no texts -/

namespace Device

variable {σ : Type} (d : Device σ)

theorem invoke_of_not_prepared {e : EntryPoint} {args : List Value}
    (h : ∀ p, prepare e [] args ≠ .ok p) (s : σ) : ∃ err, d.invoke e args s = .error err s := by
  unfold invoke
  cases hp : prepare e [] args with
  | ok p => exact absurd hp (h p)
  | error err => exact ⟨.failed err, rfl⟩

variable {file key : Value} (hkey : ∀ text, key ≠ .str text)

include hkey

/-- No dataset has such a name, and nobody is asked about it. -/
theorem readWhole_of_not_text (type : ArrayType) (s : σ) :
    ∃ err, d.readWhole file key type s = .error err s := by
  have hsize : ∀ dim : Int, ∀ p, prepare .size [] [file, key, .int dim] ≠ .ok p := by
    intro dim p hp
    cases prepares_of_prepare hp
    exact hkey _ rfl
  have hread : ∀ rank starts counts stride dest p,
      prepare .read [] [file, key, rank, starts, counts, stride, dest] ≠ .ok p := by
    intro rank starts counts stride dest p hp
    cases prepares_of_prepare hp
    exact hkey _ rfl
  unfold readWhole
  cases hrank : type.rank with
  | succ rank =>
      obtain ⟨err, herr⟩ := d.invoke_of_not_prepared (hsize 0) s
      refine ⟨err, Service.bind_of_error ?_ _⟩
      rw [List.range_succ_eq_map, List.mapM_cons]
      exact Service.bind_of_error (Service.bind_of_error herr _) _
  | zero =>
      rw [List.range_zero, List.mapM_nil, pure_bind, List.map_nil]
      cases (ArrayValue.zeros type.elem []).mapError Stop.fault with
      | error err => exact ⟨err, rfl⟩
      | ok a =>
          obtain ⟨err, herr⟩ := d.invoke_of_not_prepared (hread (.int (0 : Nat)) (origin 0)
            (.tuple (Value.ints [])) (.int 0) (.array a)) s
          exact ⟨err, Service.bind_of_error herr _⟩

theorem writeWhole_of_not_text (rank : Nat) (source : Value) (s : σ) :
    ∃ err, d.writeWhole file key rank source s = .error err s := by
  unfold writeWhole
  cases (source.attr "shape").mapError Stop.failed with
  | error err => exact ⟨err, rfl⟩
  | ok counts =>
      exact d.invoke_of_not_prepared (fun p hp => by
        cases prepares_of_prepare hp
        exact hkey _ rfl) s

end Device

/-! ### Runs that are covered -/

def FrontMachine.requests {σ : Type} (m : FrontMachine (σ × List Request)) : List Request :=
  m.toMachine.requests

theorem FrontMachine.requests_le {σ : Type} {m : FrontMachine (σ × List Request)}
    {n : Machine (σ × List Request)} (h : m.device = n.device) : m.requests <+: n.requests := by
  have hrequests : m.requests = n.requests := congrArg Prod.snd h
  exact hrequests ▸ List.prefix_refl m.requests

namespace Front

open Exec (Covers Performs)

variable {σ : Type} {d : Device σ} {m : FrontMachine (σ × List Request)}
  {n : Machine (σ × List Request)} {ss : List Stmt}
  {R : FrontMachine (σ × List Request) → Machine (σ × List Request) → Prop}
  (hdevice : m.device = n.device)

include hdevice

theorem covers_error (e : Stop RunError) :
    Covers FrontMachine.requests Machine.requests R (.error e m : EStateM.Result _ _ Unit)
      (Exec.body d.recording ss n) :=
  (FrontMachine.requests_le hdevice).trans (Exec.body_requests d ss n)

theorem covers_value {v : Var} {k : Value → Front (σ × List Request) Unit}
    (hv : m.env[v.name]? = n.env[v.name]?)
    (h : ∀ a, n.env[v.name]? = some a →
      Covers FrontMachine.requests Machine.requests R (k a m) (Exec.body d.recording ss n)) :
    Covers FrontMachine.requests Machine.requests R ((value v >>= k) m)
      (Exec.body d.recording ss n) := by
  cases ha : n.env[v.name]? with
  | none =>
      have hvalue : value v m = .error (.failed (.undefinedVariable v.name)) m := by
        rw [value_apply, Env.get, hv, ha]
        rfl
      rw [Service.bind_of_error hvalue]
      exact covers_error hdevice _
  | some a =>
      have hvalue : value v m = .ok a m := by
        rw [value_apply, Env.get, hv, ha]
        rfl
      rw [Service.bind_of_ok hvalue]
      exact h a ha

theorem covers_serve {α : Type} {x : Service (σ × List Request) α} {post : α → Env → Prop}
    {k : α → Front (σ × List Request) Unit} (hx : Performs d.recording ss n x post)
    (h : ∀ a n', post a n'.env →
      ∃ m', k a { m with device := n'.device } = .ok () m' ∧ R m' n') :
    Covers FrontMachine.requests Machine.requests R ((serve x >>= k) m)
      (Exec.body d.recording ss n) := by
  unfold Exec.Performs at hx
  cases hs : x n.device with
  | error e t =>
      have hserve : serve x m = .error e { m with device := t } := by rw [serve, hdevice, hs]
      rw [Service.bind_of_error hserve]
      cases hb : Exec.body d.recording ss n with
      | error e' n' =>
          rw [hb, hs] at hx
          obtain ⟨-, rfl⟩ := hx
          exact List.prefix_refl _
      | ok u n' => rw [hb, hs] at hx; exact hx.elim
  | ok a t =>
      have hserve : serve x m = .ok a { m with device := t } := by rw [serve, hdevice, hs]
      rw [Service.bind_of_ok hserve]
      cases hb : Exec.body d.recording ss n with
      | error e' n' => rw [hb, hs] at hx; exact hx.elim
      | ok u n' =>
          rw [hb, hs] at hx
          obtain ⟨rfl, hpost⟩ := hx
          obtain ⟨m', hm', hR⟩ := h a n' hpost
          rw [hm']
          exact ⟨rfl, hR⟩

theorem covers_serve_error {α : Type} {x : Service (σ × List Request) α}
    (hx : ∃ err, x m.device = .error err m.device) (k : α → Front (σ × List Request) Unit) :
    Covers FrontMachine.requests Machine.requests R ((serve x >>= k) m)
      (Exec.body d.recording ss n) := by
  obtain ⟨err, herr⟩ := hx
  have hserve : serve x m = .error err m := by rw [serve, herr]
  rw [Service.bind_of_error hserve]
  exact covers_error hdevice err

end Front

end SpmdArrays
