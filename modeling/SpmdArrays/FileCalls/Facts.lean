import SpmdArrays.Program.Statement
import Std.Data.TreeMap

/-!
What is known about the variables of one function, by name. Knowledge is only
added: a later assignment to a name does not take back what was learned about
it before.
-/

namespace SpmdArrays

/-- What a file handle comes from. -/
inductive FileOrigin where
  /-- Opened under the name that the variable holds. -/
  | named (name : Var)
  /-- A group inside another handle; it has no source name of its own. -/
  | group
  deriving DecidableEq, Repr

/-- A dataset reached through a handle; both parts are variables. -/
structure DatasetRef where
  file : Var
  name : Var
  deriving DecidableEq, Repr

/-- All that is known about one name. -/
structure Known where
  isFrontEnd : Bool := false
  opensFiles : Bool := false
  file : Option FileOrigin := none
  dataset : Option DatasetRef := none
  /-- The extents under which the dataset was created. -/
  shape : Option (List Var) := none
  /-- The handle whose `close` this is, and so on for the other methods. -/
  closes : Option Var := none
  makesDataset : Option Var := none
  makesGroup : Option Var := none
  str : Option String := none
  tuple : Option (List Var) := none
  /-- The name that this one is copied into. -/
  copiedTo : Option String := none
  deriving DecidableEq, Repr

/-- What a copy takes over; modules and methods do not travel. -/
def Known.inherit (k source : Known) : Known :=
  { k with
    file := source.file <|> k.file
    str := source.str <|> k.str
    dataset := source.dataset <|> k.dataset
    shape := source.shape <|> k.shape
    tuple := source.tuple <|> k.tuple }

structure Facts where
  table : Std.TreeMap String Known := {}

namespace Facts

def about (f : Facts) (name : String) : Known := f.table.getD name {}

def learn (f : Facts) (name : String) (add : Known → Known) : Facts :=
  ⟨f.table.insert name (add (f.about name))⟩

theorem about_learn (f : Facts) (name : String) (add : Known → Known) (x : String) :
    (f.learn name add).about x = if name = x then add (f.about x) else f.about x := by
  unfold learn about
  by_cases h : name = x
  · subst h; simp
  · simp [h, Std.TreeMap.getD_insert]

theorem about_empty (x : String) : Facts.about {} x = {} := Std.TreeMap.getD_emptyc

/-- Notes all plain copies of a block. This comes before its statements are
looked at, so that a use can see the name its result is later copied into. -/
def noteCopies (f : Facts) (body : List Stmt) : Facts :=
  body.foldl
    (fun f s =>
      match s with
      | .assign target (.copy source) =>
        f.learn source.name fun k => { k with copiedTo := some target.name }
      | _ => f)
    f

theorem noteCopies_induct {P : Facts → Prop} {f : Facts} {body : List Stmt} (h : P f)
    (hstep : ∀ g (target source : Var), .assign target (.copy source) ∈ body → P g →
      P (g.learn source.name fun k => { k with copiedTo := some target.name })) :
    P (f.noteCopies body) := by
  unfold noteCopies
  induction body generalizing f with
  | nil => exact h
  | cons s body ih =>
      rw [List.foldl_cons]
      refine ih ?_ fun g target source hs => hstep g target source (List.mem_cons_of_mem _ hs)
      split
      · exact hstep _ _ _ (List.mem_cons_self ..) h
      · exact h

def noteCopy (f : Facts) (target source : Var) : Facts :=
  f.learn target.name fun k => k.inherit (f.about source.name)

/-- Only strings are worth noting. -/
def noteConst (f : Facts) (target : Var) (value : Literal) : Facts :=
  match value with
  | .str s => f.learn target.name fun k => { k with str := some s }
  | _ => f

/-- The source name of a handle, when it is known before the program runs. -/
def sourceName? (f : Facts) (file : Var) : Option String :=
  match (f.about file.name).file with
  | some (.named name) => (f.about name.name).str
  | _ => none

end Facts

end SpmdArrays
