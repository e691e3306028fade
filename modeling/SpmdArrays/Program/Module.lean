import SpmdArrays.Program.Function

/-!
A program module: functions in the order in which they were added, each under a
name of its own.
-/

namespace SpmdArrays

structure Module where
  name : String
  functions : Array Function := #[]

namespace Module

def find? (m : Module) (name : String) : Option Function :=
  m.functions.find? (·.name == name)

/-- Adds a function at the end and returns its number, or refuses a name that
is taken. -/
def add? (m : Module) (f : Function) : Option (Nat × Module) :=
  if (m.find? f.name).isSome then none
  else some (m.functions.size, { m with functions := m.functions.push f })

def takenMessage (name : String) : String :=
  "function '" ++ name ++ "' already defined"

end Module

end SpmdArrays
