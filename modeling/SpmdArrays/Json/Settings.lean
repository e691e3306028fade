import SpmdArrays.Json.Value
import SpmdArrays.Settings

/-!
Settings from JSON: an object of some of the options, each at most once, or an
array of the first options in their order.
-/

namespace SpmdArrays.Settings

def optionNames : List String :=
  ["dump_ir", "static_introspection", "target_triple", "data_layout"]

/-- Sets one option; refuses a name that is none and a value of the wrong kind. -/
def setOption? (s : Settings) (name : String) (v : Json.Value) : Option Settings :=
  match name, v with
  | "dump_ir", .bool b => some { s with dumpIr := b }
  | "static_introspection", .bool b => some { s with staticIntrospection := b }
  | "target_triple", .string (some t) => some { s with targetTriple := t }
  | "data_layout", .string (some t) => some { s with dataLayout := t }
  | _, _ => none

def ofValue? : Json.Value → Option Settings
  | .object members =>
    if (members.map Prod.fst).Nodup then
      members.foldlM (fun s m => do s.setOption? (← m.1) m.2) {}
    else none
  | .array items =>
    if items.length ≤ optionNames.length then
      (optionNames.zip items).foldlM (fun s o => s.setOption? o.1 o.2) {}
    else none
  | _ => none

def ofJson? (text : String) : Option Settings := Json.parse? text >>= ofValue?

end SpmdArrays.Settings
