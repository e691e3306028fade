import SpmdArrays.Program.Module

/-!
The text of programs: functions and blocks in the order of their creation,
statements in program order.
-/

namespace SpmdArrays

def commaText (items : List String) : String := ", ".intercalate items

def varsText (vs : List Var) : String := commaText (vs.map Var.name)

def Expr.text : Expr → String
  | .global m => "global(" ++ m.text ++ ")"
  | .attr base name => "getattr(" ++ base.name ++ ", " ++ name ++ ")"
  | .constItem base index indexVar =>
    "static_getitem(" ++
      commaText (base.name :: index.text :: (indexVar.map Var.name).toList) ++ ")"
  | .item base index => "getitem(" ++ base.name ++ ", " ++ index.name ++ ")"
  | .tuple items => "build_tuple(" ++ varsText items ++ ")"
  | .const value => "const(" ++ value.text ++ ")"
  | .copy source => source.name
  | .alloc shape elem => "alloc((" ++ varsText shape ++ "), " ++ elem.name ++ ")"

def Stmt.text : Stmt → String
  | .assign target value => target.name ++ " = " ++ value.text
  | .call target callee args kws =>
    target.name ++ " = call " ++ callee.name ++ "(" ++
      commaText (args.map Var.name ++ kws.map fun kw => kw.1 ++ "=" ++ kw.2.name) ++ ")"
  | .store target index value => target.name ++ "[" ++ index.text ++ "] = " ++ value.name

def Terminator.text : Terminator → String
  | .jump target => "jump " ++ labelText target
  | .branch cond ifTrue ifFalse =>
    "branch " ++ commaText [cond.name, labelText ifTrue, labelText ifFalse]
  | .ret (some v) => "return " ++ v.name
  | .ret none => "return"

def Block.lines (b : Block) (l : Label) : List String :=
  ("  " ++ labelText l ++ ":") ::
    (b.body.map Stmt.text ++ [b.term.text]).map ("    " ++ ·)

def Function.lines (f : Function) : List String :=
  ("def " ++ f.name ++ "(" ++ commaText f.params ++ ") \x7b") ::
    f.locals.toList.map (fun d => "  local " ++ d.1 ++ ": " ++ d.2.text) ++
    (f.blocks.toList.mapIdx fun l b => b.lines l).flatten ++ ["\x7d"]

def Function.text (f : Function) : String :=
  String.join (f.lines.map (· ++ "\n"))

def Module.text (m : Module) : String :=
  "// module: " ++ m.name ++ "\n" ++
    String.join (m.functions.toList.map fun f => "\n" ++ f.text)

end SpmdArrays
