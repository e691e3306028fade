import SpmdArrays.Text.Number
import SpmdArrays.Text.Quoted

/-!
Constants of a program: numbers, truth values, strings, the absent value and
slices, together with the modules that a program can load.
-/

namespace SpmdArrays

/-- The slice `start:stop:step`; an absent part is an omitted bound. -/
structure Slice where
  start : Option Int := none
  stop : Option Int := none
  step : Option Int := none
  deriving DecidableEq, Repr

namespace Slice

/-- The slice `:`, which takes everything. -/
def full : Slice := {}

def boundText (bound : Option Int) : String := (bound.map toString).getD ""

def text (s : Slice) : String :=
  boundText s.start ++ ":" ++ boundText s.stop ++ (s.step.map (":" ++ toString ·)).getD ""

end Slice

inductive Literal where
  | int (v : Int)
  | float (v : Float)
  | bool (b : Bool)
  | str (s : String)
  | absent
  | slice (s : Slice)
  deriving DecidableEq, Repr

namespace Literal

def str? : Literal → Option String
  | .str s => some s
  | _ => none

def isFullSlice : Literal → Bool
  | .slice s => s == Slice.full
  | _ => false

def text : Literal → String
  | .int v => toString v
  | .float v => NumberLayout.literal.text v
  | .bool b => toString b
  | .str s => Text.quoted s
  | .absent => "None"
  | .slice s => "slice(" ++ s.text ++ ")"

end Literal

/-- The modules that a program can load: the hierarchical-data front end, the
table of positional entry points, and any other, which is left alone. -/
inductive ModuleName where
  | h5py
  | ioAbi
  | other (name : String)
  deriving DecidableEq, Repr

def ModuleName.text : ModuleName → String
  | .h5py => "h5py"
  | .ioAbi => "io_abi"
  | .other name => name

end SpmdArrays
