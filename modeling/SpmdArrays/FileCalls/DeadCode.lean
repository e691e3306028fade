import SpmdArrays.Program.Function
import Std.Data.TreeSet

/-!
Removal of assignments that nobody needs. A name is needed when a call, a store
or a terminator uses it, or when an assignment to a needed name does. Names
count for the whole function: a name that is needed anywhere keeps all its
assignments.
-/

namespace SpmdArrays

/-- An assignment seen from outside: the name it defines and the names it uses. -/
structure Dependency where
  target : String
  uses : List String

namespace Block

/-- The names that a block needs whatever happens to its assignments. -/
def roots (b : Block) : List String :=
  (b.body.filter Stmt.hasEffect).flatMap (fun s => s.uses.map Var.name) ++
    b.term.uses.map Var.name

def dependencies (b : Block) : List Dependency :=
  b.body.filterMap fun s => s.target?.map fun t => ⟨t.name, s.uses.map Var.name⟩

end Block

def definitionsOf (needed : Std.TreeSet String) (pending : List Dependency) : List Dependency :=
  pending.filter fun d => needed.contains d.target

def otherDefinitions (needed : Std.TreeSet String) (pending : List Dependency) :
    List Dependency :=
  pending.filter fun d => !needed.contains d.target

theorem length_otherDefinitions_lt {needed : Std.TreeSet String} {pending : List Dependency}
    (h : (definitionsOf needed pending).isEmpty = false) :
    (otherDefinitions needed pending).length < pending.length := by
  unfold definitionsOf at h
  unfold otherDefinitions
  induction pending with
  | nil => simp at h
  | cons d pending ih =>
    by_cases hd : needed.contains d.target = true
    · have := List.length_filter_le (fun d => !needed.contains d.target) pending
      simp only [List.filter_cons, hd, Bool.not_true, Bool.false_eq_true, if_false,
        List.length_cons]
      omega
    · simp only [List.filter_cons, hd, Bool.false_eq_true, if_false] at h
      have := ih h
      simp only [List.filter_cons, hd, Bool.not_false, if_true, List.length_cons]
      omega

/-- Adds to the needed names those that the definitions of needed names use,
until nothing is added any more. Definitions that were followed are not looked
at again. -/
def closeNeeded (needed : Std.TreeSet String) (pending : List Dependency) :
    Std.TreeSet String :=
  if (definitionsOf needed pending).isEmpty then needed
  else
    closeNeeded
      (needed.insertMany ((definitionsOf needed pending).flatMap Dependency.uses))
      (otherDefinitions needed pending)
termination_by pending.length
decreasing_by
  rename_i h
  exact length_otherDefinitions_lt (by simpa using h)

namespace Function

def neededNames (f : Function) : Std.TreeSet String :=
  closeNeeded (Std.TreeSet.ofList (f.blocks.toList.flatMap Block.roots))
    (f.blocks.toList.flatMap Block.dependencies)

end Function

def Stmt.isKept (needed : Std.TreeSet String) (s : Stmt) : Bool :=
  s.hasEffect || s.target?.any fun t => needed.contains t.name

def Block.withoutDead (needed : Std.TreeSet String) (b : Block) : Block :=
  { b with body := b.body.filter (Stmt.isKept needed) }

def Function.withoutDead (f : Function) : Function :=
  { f with blocks := f.blocks.map (Block.withoutDead f.neededNames) }

def Block.deadCount (needed : Std.TreeSet String) (b : Block) : Nat :=
  b.body.countP fun s => !s.isKept needed

/-- Takes dead statements out and counts them. -/
def Function.removeDead (f : Function) : Nat × Function :=
  (f.blocks.foldl (fun removed b => removed + b.deadCount f.neededNames) 0, f.withoutDead)

end SpmdArrays
