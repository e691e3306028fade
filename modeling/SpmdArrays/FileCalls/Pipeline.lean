import SpmdArrays.FileCalls.Expand
import SpmdArrays.Program.Module
import SpmdArrays.Settings

/-!
Passes over a module, run in the order they are given. A pass works function by
function; the first function that fails ends the run, keeps its body, and the
functions before it stay as the pass left them.
-/

namespace SpmdArrays

inductive Pass where
  | deadCode
  | fileCalls (settings : Settings) (catalog : Option Inspector)

namespace Pass

def name : Pass → String
  | .deadCode => "dce"
  | .fileCalls .. => "io-rewrite"

def onFunction : Pass → Function → Except (Stop FileError) Function
  | .deadCode, f => .ok f.withoutDead
  | .fileCalls settings catalog, f =>
    f.expandFiles (if settings.staticIntrospection then catalog else none)

/-- Runs a pass over functions up to the first that fails. -/
def onFunctions (p : Pass) : List Function → Except (Stop FileError) Unit × List Function
  | [] => (.ok (), [])
  | f :: fs =>
    match p.onFunction f with
    | .error e => (.error e, f :: fs)
    | .ok g =>
      let (outcome, gs) := p.onFunctions fs
      (outcome, g :: gs)

def onModule (p : Pass) (m : Module) : Except (Stop FileError) Unit × Module :=
  let (outcome, fs) := p.onFunctions m.functions.toList
  (outcome, { m with functions := fs.toArray })

end Pass

/-- Runs passes up to the first that fails, and names that one. -/
def Module.runPasses (m : Module) : List Pass → Except (String × Stop FileError) Unit × Module
  | [] => (.ok (), m)
  | p :: ps =>
    match p.onModule m with
    | (.error e, n) => (.error (p.name, e), n)
    | (.ok (), n) => n.runPasses ps

def Module.expandFiles (m : Module) (settings : Settings) (catalog : Option Inspector) :
    Except (Stop FileError) Unit × Module :=
  (Pass.fileCalls settings catalog).onModule m

end SpmdArrays
