import SpmdArrays.Proofs.Exec.Requests
import SpmdArrays.Proofs.FileCalls.EmittedRuns
import SpmdArrays.Proofs.FileCalls.Roles
import SpmdArrays.Proofs.Program.Dominance

/-!
Functions run as they are written, with the file operations carried out where they
stand. The front end, its opening function, the methods of a handle and the datasets
that are named through one have no values; what a name stands for is kept beside the
variables. A handle is an ordinary value that also stands for a file, and so does the
handle of a new dataset for the dataset. All other statements do what they always do.

The element type and the rank under which a dataset is moved are no matter of the run:
they are what was found out about the place before it.
-/

namespace SpmdArrays

/-- What a name of the front end stands for. -/
inductive Meaning where
  | frontEnd
  | opener
  /-- A method together with the handle that it was taken from. -/
  | method (m : Expand.Method) (file : Value)
  | file
  /-- A dataset: the handle and the key as they were when it was named. -/
  | dataset (file key : Value)

/-- What a plain copy hands on. -/
def Meaning.travels : Meaning → Bool
  | .file | .dataset .. => true
  | .frontEnd | .opener | .method .. => false

/-- A machine that also knows what names stand for. -/
structure FrontMachine (σ : Type) extends Machine σ where
  meanings : Std.TreeMap String Meaning := {}

namespace FrontMachine

variable {σ : Type}

def meaning? (m : FrontMachine σ) (v : Var) : Option Meaning := m.meanings[v.name]?

/-- Gives a variable a value and a meaning, or takes away what it had of them. -/
def bind (m : FrontMachine σ) (t : Var) (value : Option Value) (meaning : Option Meaning) :
    FrontMachine σ :=
  { m with
    env := m.env.alter t.name fun _ => value
    meanings := m.meanings.alter t.name fun _ => meaning }

/-- The machine after an ordinary statement. -/
def after (m : FrontMachine σ) (s : Stmt) (n : Machine σ) : FrontMachine σ :=
  match s.target? with
  | some t => { n with meanings := m.meanings.erase t.name }
  | none => { n with meanings := m.meanings }

section

variable (m : FrontMachine σ) (t : Var) (value : Option Value) (meaning : Option Meaning)

@[simp] theorem bind_device : (m.bind t value meaning).device = m.device := rfl

@[simp] theorem bind_env_self : (m.bind t value meaning).env[t.name]? = value := by
  simp [bind]

@[simp] theorem bind_meanings_self : (m.bind t value meaning).meanings[t.name]? = meaning := by
  simp [bind]

variable {t} {x : String} (h : t.name ≠ x)

include h

theorem bind_env_of_ne : (m.bind t value meaning).env[x]? = m.env[x]? := by
  simp [bind, Std.TreeMap.getElem?_alter, h]

theorem bind_meanings_of_ne : (m.bind t value meaning).meanings[x]? = m.meanings[x]? := by
  simp [bind, Std.TreeMap.getElem?_alter, h]

end

@[simp] theorem toMachine_after (m : FrontMachine σ) (s : Stmt) (n : Machine σ) :
    (m.after s n).toMachine = n := by
  unfold after
  cases s.target? <;> rfl

theorem after_meanings_target (m : FrontMachine σ) {s : Stmt} (n : Machine σ) {t : Var}
    (h : s.target? = some t) : (m.after s n).meanings[t.name]? = none := by
  simp [after, h]

theorem after_meanings_of_not_assigns (m : FrontMachine σ) {s : Stmt} (n : Machine σ) {x : String}
    (h : ¬ s.Assigns x) : (m.after s n).meanings[x]? = m.meanings[x]? := by
  unfold after
  cases ht : s.target? with
  | none => rfl
  | some t =>
      have hne : t.name ≠ x := fun heq => h (by rw [Stmt.Assigns, ht]; exact congrArg some heq)
      simp [Std.TreeMap.getElem?_erase, hne]

end FrontMachine

namespace Expand.Method

def ofName? (name : String) : Option Method :=
  [close, createDataset, createGroup].find? fun m => m.name = name

@[simp] theorem ofName?_name (m : Method) : ofName? m.name = some m := by
  cases m <;> rfl

end Expand.Method

namespace FileScope

/-- The type that was found for a read. -/
def readType? (c : FileScope) (facts : Facts) (t : Var) : Expr → Option ArrayType
  | .constItem base _ _ =>
    (facts.about base.name).dataset.bind fun d => (c.resolve facts t d).toOption
  | _ => none

/-- The rank that was found for a write. -/
def writeRank? (c : FileScope) (facts : Facts) (t source : Var) : Option Nat :=
  (facts.about t.name).dataset.bind fun d => (Expand.rankFor c facts t d source).toOption

end FileScope

def Value.rank : Value → Except RunError Value
  | .tuple items => .ok (.int items.length)
  | other => .error (.typeError (.notTuple other))

abbrev Front (σ : Type) := EStateM (Stop RunError) (FrontMachine σ)

namespace Front

variable {σ α : Type}

def ofExcept : Except RunError α → Front σ α
  | .ok a => fun m => .ok a m
  | .error e => fun m => .error (.failed e) m

def value (v : Var) : Front σ Value := do ofExcept ((← get).env.get v)

def require (what : String) : Option α → Front σ α
  | some a => pure a
  | none => ofExcept (.error (.unsupported (.note what)))

def argument (v : Option Var) : Front σ Value := do value (← require "missing argument" v)

def argumentOr (v : Option Var) (default : Value) : Front σ Value :=
  match v with
  | some v => value v
  | none => pure default

/-- Lets the device of the machine do something. -/
def serve (x : Service σ α) : Front σ α := fun m =>
  match x m.device with
  | .ok a t => .ok a { m with device := t }
  | .error e t => .error e { m with device := t }

def bind (t : Var) (value : Option Value) (meaning : Option Meaning) : Front σ Unit := fun m =>
  .ok () (m.bind t value meaning)

/-- A statement that has nothing to do with the front end. -/
def plain (d : Device σ) (s : Stmt) : Front σ Unit := fun m =>
  match Exec.stmt d s m.toMachine with
  | .ok () n => .ok () (m.after s n)
  | .error e n => .error e { n with meanings := m.meanings }

/-! ### Statements -/

def assign (d : Device σ) (type : Option ArrayType) (t : Var) (e : Expr) : Front σ Unit := do
  let m ← get
  match e with
  | .global .h5py => bind t none (some .frontEnd)
  | .attr base name =>
    match m.meaning? base, Expand.Method.ofName? name with
    | some .frontEnd, _ =>
      if name = "File" then bind t none (some .opener) else plain d (.assign t e)
    | some .file, some method => bind t none (some (.method method (← value base)))
    | _, _ => plain d (.assign t e)
  | .constItem base index _ =>
    match m.meaning? base with
    | some .file => bind t none (some (.dataset (← value base) (.ofLiteral index)))
    | some (.dataset file key) =>
      if index.isFullSlice then
        let a ← serve (d.readWhole file key (← require "unresolved type" type))
        bind t (some (.array a)) none
      else plain d (.assign t e)
    | _ => plain d (.assign t e)
  | .item base index =>
    match m.meaning? base with
    | some .file => bind t none (some (.dataset (← value base) (← value index)))
    | _ => plain d (.assign t e)
  | .copy source =>
    match m.meaning? source with
    | some meaning =>
      if meaning.travels then bind t m.env[source.name]? (some meaning)
      else plain d (.assign t e)
    | none => plain d (.assign t e)
  | _ => plain d (.assign t e)

/-- Calls an entry point and gives its result and a meaning to a variable. -/
def request (d : Device σ) (t : Var) (e : EntryPoint) (values : List Value)
    (meaning : Option Meaning) : Front σ Unit := do
  let reply ← serve (d.invoke e values)
  bind t (some (e.result reply.status)) meaning

def call (d : Device σ) (t callee : Var) (args : List Var) (kws : List (String × Var)) :
    Front σ Unit := do
  match (← get).meaning? callee with
  | some .opener =>
    let name ← argument (args[0]? <|> kws.lookup "name")
    let mode ← argumentOr (args[1]? <|> kws.lookup "mode") (.str "r")
    request d t .openFile [name, mode, .int 0] (some .file)
  | some (.method .close file) => request d t .closeFile [file] none
  | some (.method .createDataset file) =>
    let name ← argument (args[0]? <|> kws.lookup "name")
    let shape ← argument (args[1]? <|> kws.lookup "shape")
    let elem ← argument (kws.lookup "dtype" <|> args[2]?)
    request d t .createDataset [file, name, ← ofExcept shape.rank, shape, elem]
      (some (.dataset file name))
  | some (.method .createGroup file) =>
    let name ← argument (args[0]? <|> kws.lookup "name")
    request d t .createGroup [file, name] (some .file)
  | _ => plain d (.call t callee args kws)

def store (d : Device σ) (rank : Option Nat) (t : Var) (index : Literal) (source : Var) :
    Front σ Unit := do
  match (← get).meaning? t with
  | some (.dataset file key) =>
    if index.isFullSlice then
      let _ ← serve (d.writeWhole file key (← require "unresolved rank" rank) (← value source))
    else plain d (.store t index source)
  | _ => plain d (.store t index source)

def stmt (d : Device σ) (c : FileScope) (facts : Facts) : Stmt → Front σ Unit
  | .assign t e => assign d (c.readType? facts t e) t e
  | .call t callee args kws => call d t callee args kws
  | .store t index source => store d (c.writeRank? facts t source) t index source

end Front

/-! ### Functions -/

namespace Function

variable {σ : Type}

/-- What is known before the statement behind these ones of a block is looked at, when
the blocks are gone through in the given order. -/
def factsIn (f : Function) (catalog : Option Inspector) (order : List Label) (l : Label)
    (front : List Stmt) : Facts :=
  let c := f.fileScope catalog
  let look : Expand Unit := do
    let _ ← Expand.blocks c f.blocks (order.takeWhile (· ≠ l))
    Expand.modifyFacts (·.noteCopies ((f.block? l).getD {}).body)
    let _ ← Expand.stmts c front
  match look { nextTemp := f.nextTemp } with
  | .ok (_, st) => st.facts
  | .error _ => {}

def factsAt (f : Function) (catalog : Option Inspector) : Label → List Stmt → Facts :=
  f.factsIn catalog f.order

end Function

namespace Front

variable {σ : Type}

def body (d : Device σ) (c : FileScope) (known : List Stmt → Facts) :
    List Stmt → List Stmt → Front σ Unit
  | _, [] => pure ()
  | front, s :: rest => do
    stmt d c (known front) s
    body d c known (front ++ [s]) rest

def blocks (d : Device σ) (c : FileScope) (known : Label → List Stmt → Facts) (f : Function) :
    Nat → Label → Front σ (Option Value)
  | 0, _ => ofExcept (.error (.unsupported .stepLimit))
  | steps + 1, l => do
    match f.block? l with
    | none => ofExcept (.error (.unsupported (.missingBlock l)))
    | some b =>
      body d c (known l) [] b.body
      match ← ofExcept (Exec.Next.of (← get).env b.term) with
      | .goto l => blocks d c known f steps l
      | .done v => return v

end Front

/-- The machine on which a run as written starts. Nothing stands for anything yet. -/
def Function.beginAsWritten {σ : Type} (f : Function) (args : List Value) (s : σ) :
    FrontMachine (σ × List Request) :=
  { f.begin args (s, ([] : List Request)) with }

/-- Runs a function as it is written. Returns what it returned or why it stopped, the
device as it was left and the requests that were made. -/
def Function.runAsWritten {σ : Type} (d : Device σ) (f : Function) (catalog : Option Inspector)
    (args : List Value) (s : σ) : Except (Stop RunError) (Option Value) × σ × List Request :=
  outcome (Exec.mapState FrontMachine.toMachine
    (Front.blocks d.recording (f.fileScope catalog) (f.factsAt catalog) f stepLimit f.entry
      (f.beginAsWritten args s)))

/-! ### Where names of the front end may stand -/

/-- The variable that a statement calls, copies, looks into or stores into. -/
def Stmt.head? : Stmt → Option Var
  | .call _ callee _ _ => some callee
  | .assign _ (.attr base _) | .assign _ (.constItem base _ _) | .assign _ (.item base _) =>
    some base
  | .assign _ (.copy source) => some source
  | .assign .. => none
  | .store target _ _ => some target

/-- All other variables that a statement uses. -/
def Stmt.operands : Stmt → List Var
  | .call _ _ args kws => args ++ kws.map Prod.snd
  | .assign _ (.constItem _ _ indexVar) => indexVar.toList
  | .assign _ (.item _ index) => [index]
  | .assign _ (.attr ..) | .assign _ (.copy _) => []
  | .assign _ value => value.uses
  | .store _ _ value => [value]

theorem Stmt.head_or_operand {s : Stmt} {v : Var} (h : v ∈ s.uses) :
    s.head? = some v ∨ v ∈ s.operands := by
  cases s with
  | call t callee args kws =>
      rcases List.mem_cons.mp h with rfl | h
      · exact Or.inl rfl
      · exact Or.inr h
  | store t index value =>
      rcases List.mem_cons.mp h with rfl | h
      · exact Or.inl rfl
      · exact Or.inr h
  | assign t value =>
      cases value with
      | attr base name => exact Or.inl (congrArg some (List.mem_singleton.mp h).symm)
      | copy source => exact Or.inl (congrArg some (List.mem_singleton.mp h).symm)
      | constItem base index indexVar =>
          rcases List.mem_cons.mp h with rfl | h
          · exact Or.inl rfl
          · exact Or.inr h
      | item base index =>
          rcases List.mem_cons.mp h with rfl | h
          · exact Or.inl rfl
          · exact Or.inr h
      | _ => exact Or.inr h

theorem Stmt.uses_of_head {s : Stmt} {v : Var} (h : s.head? = some v) : v ∈ s.uses := by
  cases s with
  | call t callee args kws => cases h; exact List.mem_cons_self ..
  | store t index value => cases h; exact List.mem_cons_self ..
  | assign t value => cases value <;> cases h <;> exact List.mem_cons_self ..

theorem Stmt.uses_of_operand {s : Stmt} {v : Var} (h : v ∈ s.operands) : v ∈ s.uses := by
  cases s with
  | call t callee args kws => exact List.mem_cons_of_mem _ h
  | store t index value => exact List.mem_cons_of_mem _ h
  | assign t value =>
      cases value with
      | attr base name => cases h
      | copy source => cases h
      | constItem base index indexVar => exact List.mem_cons_of_mem _ h
      | item base index => exact List.mem_cons_of_mem _ h
      | _ => exact h

/-- The statement does with a head of this role what the table has for it. Handles may
stand anywhere. -/
def Stmt.inTable : Stmt → Expand.Role → Bool
  | _, .handle => true
  | .assign _ (.attr _ name), .frontEnd => name = "File"
  | .call .., .opener | .call .., .method _ => true
  | .assign _ (.constItem _ index _), .dataset | .store _ index _, .dataset => index.isFullSlice
  | .assign _ (.copy _), .dataset => true
  | _, _ => false

namespace Function

/-- What the statements of a function make of a name, wherever they stand. The results
of creating datasets are handles like others and get no role here. -/
inductive Plays (f : Function) : Expand.Role → String → Prop
  | frontEnd {t : Var} (h : .assign t (.global .h5py) ∈ f.stmts) : Plays f .frontEnd t.name
  | opener {t base : Var} (h : .assign t (.attr base "File") ∈ f.stmts)
      (hb : Plays f .frontEnd base.name) : Plays f .opener t.name
  | openFile {t callee : Var} {args : List Var} {kws : List (String × Var)}
      (h : .call t callee args kws ∈ f.stmts) (hc : Plays f .opener callee.name) :
      Plays f .handle t.name
  | method {t base : Var} {m : Expand.Method} (h : .assign t (.attr base m.name) ∈ f.stmts)
      (hb : Plays f .handle base.name) : Plays f (.method m) t.name
  | createGroup {t callee : Var} {args : List Var} {kws : List (String × Var)}
      (h : .call t callee args kws ∈ f.stmts)
      (hc : Plays f (.method .createGroup) callee.name) : Plays f .handle t.name
  | constItem {t base : Var} {index : Literal} {indexVar : Option Var}
      (h : .assign t (.constItem base index indexVar) ∈ f.stmts)
      (hb : Plays f .handle base.name) : Plays f .dataset t.name
  | item {t base index : Var} (h : .assign t (.item base index) ∈ f.stmts)
      (hb : Plays f .handle base.name) : Plays f .dataset t.name
  | copy {t source : Var} {role : Expand.Role} (h : .assign t (.copy source) ∈ f.stmts)
      (hr : role.travels = true) (hs : Plays f role source.name) : Plays f role t.name

/-- The front end, its opening function, the methods of handles and the datasets named
through handles stand in the places of the table only. -/
structure FrontEndInPlace (f : Function) : Prop where
  head : ∀ s ∈ f.stmts, ∀ v, s.head? = some v → ∀ role, f.Plays role v.name →
    s.inTable role = true
  operand : ∀ s ∈ f.stmts, ∀ v ∈ s.operands, ∀ role, f.Plays role v.name → role = .handle
  term : ∀ b ∈ f.blocks.toList, ∀ v ∈ b.term.uses, ∀ role, f.Plays role v.name → role = .handle

/-- A run as written comes to a place of the function with this machine. -/
inductive ComesTo {σ : Type} (d : Device σ) (f : Function) (catalog : Option Inspector)
    (args : List Value) (s : σ) : Label → List Stmt → FrontMachine (σ × List Request) → Prop
  | start : ComesTo d f catalog args s f.entry [] (f.beginAsWritten args s)
  | step {l : Label} {front : List Stmt} {u : Stmt} {m n : FrontMachine (σ × List Request)}
      (h : ComesTo d f catalog args s l front m) (hu : f.Begins l (front ++ [u]))
      (hrun : Front.stmt d.recording (f.fileScope catalog) (f.factsAt catalog l front) u m =
        .ok () n) :
      ComesTo d f catalog args s l (front ++ [u]) n
  | jump {l k : Label} {b : Block} {m : FrontMachine (σ × List Request)}
      (h : ComesTo d f catalog args s l b.body m) (hb : f.block? l = some b)
      (hnext : Exec.Next.of m.env b.term = .ok (.goto k)) : ComesTo d f catalog args s k [] m

/-- Wherever a run as written comes to a constant index, the variable of the index holds
the constant. -/
def IndexVarsHold {σ : Type} (d : Device σ) (f : Function) (catalog : Option Inspector)
    (args : List Value) (s : σ) : Prop :=
  ∀ l front m t base index v, f.ComesTo d catalog args s l front m →
    f.Begins l (front ++ [.assign t (.constItem base index (some v))]) →
    m.env[v.name]? = some (.ofLiteral index)

end Function

end SpmdArrays
