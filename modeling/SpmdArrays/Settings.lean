/-!
Options of the compilation stages. Every option has a default.
-/

namespace SpmdArrays

structure Settings where
  dumpIr : Bool := false
  /-- Sources may be looked into before the program runs. -/
  staticIntrospection : Bool := true
  targetTriple : String := "x86_64-unknown-linux-gnu"
  dataLayout : String :=
    "e-m:e-p270:32:32-p271:32:32-p272:64:64-i64:64-f80:128-n8:16:32:64-S128"
  deriving DecidableEq, Repr

end SpmdArrays
