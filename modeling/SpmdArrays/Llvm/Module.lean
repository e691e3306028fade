import SpmdArrays.Llvm.Instr
import SpmdArrays.Settings

/-!
A module of LLVM code: signatures of all symbols in the order of their first
use, and definitions in the order in which they were completed. A symbol has
one signature, and at most one definition.
-/

namespace SpmdArrays.Llvm

inductive Error where
  | signatureConflict (symbol : String) (existing requested : Signature)
  | duplicateDefinition (name : String)
  | format
  deriving DecidableEq, Repr

def Error.message : Error → String
  | .signatureConflict symbol existing requested =>
    "symbol '" ++ symbol ++ "' already declared as '" ++ existing.text ++
      "', cannot redeclare as '" ++ requested.text ++ "'"
  | .duplicateDefinition name => "function '" ++ name ++ "' is already defined in this module"
  | .format => "formatting failed while writing LLVM text"

structure Definition where
  name : String
  sig : Signature
  internal : Bool := false
  params : List Operand := []
  /-- Stack slots, at the start of the entry block. -/
  slots : Array Instr := #[]
  body : Array Instr := #[]
  deriving DecidableEq, Repr

def linesText (is : Array Instr) : String :=
  String.join (is.toList.map fun i => i.text ++ "\n")

def Definition.text (d : Definition) : String :=
  "define " ++ (if d.internal then "internal " else "") ++ d.sig.ret.text ++ " @" ++ d.name ++
    "(" ++ Operand.listText d.params ++ ") \x7b\nentry:\n" ++ linesText d.slots ++
    linesText d.body ++ "\x7d\n"

structure Module where
  name : String
  targetTriple : String
  dataLayout : String
  symbols : Array (String × Signature) := #[]
  definitions : Array Definition := #[]
  deriving DecidableEq, Repr

namespace Module

def start (name : String) (settings : Settings) : Module :=
  { name, targetTriple := settings.targetTriple, dataLayout := settings.dataLayout }

def signature? (m : Module) (name : String) : Option Signature :=
  (m.symbols.find? fun s => s.1 == name).map Prod.snd

def isDefined (m : Module) (name : String) : Bool :=
  m.definitions.any fun d => d.name == name

/-- Makes a symbol known under a signature, or refuses a second signature. -/
def declare (m : Module) (name : String) (sig : Signature) : Except Error Module :=
  match m.signature? name with
  | some existing =>
    if existing = sig then .ok m else .error (.signatureConflict name existing sig)
  | none => .ok { m with symbols := m.symbols.push (name, sig) }

/-- Adds a definition under its own signature. A module that refuses only the
second definition has still taken note of the signature. -/
def define (m : Module) (d : Definition) : Except Error Unit × Module :=
  match m.declare d.name d.sig with
  | .error e => (.error e, m)
  | .ok m =>
    if m.isDefined d.name then (.error (.duplicateDefinition d.name), m)
    else (.ok (), { m with definitions := m.definitions.push d })

def declarationText (s : String × Signature) : String :=
  "declare " ++ s.2.ret.text ++ " @" ++ s.1 ++ "(" ++ s.2.paramsText ++ ")\n"

/-- The module as assembly text. Symbols that are defined are not declared. -/
def text (m : Module) : String :=
  let external := m.symbols.toList.filter fun s => !m.isDefined s.1
  "; ModuleID = '" ++ m.name ++ "'\n" ++
    "target datalayout = \"" ++ m.dataLayout ++ "\"\n" ++
    "target triple = \"" ++ m.targetTriple ++ "\"\n\n" ++
    String.join (external.map declarationText) ++
    (if external.isEmpty then "" else "\n") ++
    String.join (m.definitions.toList.map fun d => d.text ++ "\n")

end Module

end SpmdArrays.Llvm
