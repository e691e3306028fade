import SpmdArrays.Device.EntryPoint
import SpmdArrays.ElementType

/-!
Requests to a device that holds files, and devices as state machines. A device
answers a request with a status, which is negative on failure; a read also
returns the buffer. Answering may fault, and the state it leaves then counts.
-/

namespace SpmdArrays

inductive Request where
  | openFile (name mode : String) (parallel : Int)
  | closeFile (file : Int)
  | size (file : Int) (dataset : String) (dim : Int)
  | read (file : Int) (dataset : String) (start count : List Int) (stride : Int)
      (dest : Array Float)
  | write (file : Int) (dataset : String) (start count : List Int) (stride : Int)
      (src : Array Float)
  | createDataset (file : Int) (name : String) (shape : List Int) (elem : ElementType)
  | createGroup (file : Int) (name : String)

def Request.entry : Request → EntryPoint
  | .openFile .. => .openFile
  | .closeFile .. => .closeFile
  | .size .. => .size
  | .read .. => .read
  | .write .. => .write
  | .createDataset .. => .createDataset
  | .createGroup .. => .createGroup

/-- A status or handle, and the buffer of a read after it. -/
structure Reply where
  status : Int
  buffer : Array Float := #[]
  deriving DecidableEq

/-- A device is any state machine that answers requests. -/
structure Device (σ : Type) where
  answer : Request → σ → Except Fault Reply × σ

/-- The same device, keeping the requests it was given, first one first. -/
def Device.recording {σ : Type} (d : Device σ) : Device (σ × List Request) where
  answer q s :=
    let (reply, t) := d.answer q s.1
    (reply, t, s.2 ++ [q])

end SpmdArrays
