import SpmdArrays.Exec.Error
import SpmdArrays.Spmd.Element

/-!
The operations of one rank and what they answer. All collectives are built on
one gather: every rank contributes a number or a list of numbers, and gets the
contributions of all ranks to compute with. What a rank does with them is
decided here, without the other ranks.
-/

namespace SpmdArrays.Spmd

/-- What a rank lays down at a gather. -/
inductive Contribution where
  | scalar (t : ElementType) (v : t.Carrier)
  | vector (t : ElementType) (vs : List t.Carrier)

namespace Contribution

def scalar? (t : ElementType) : Contribution → Option t.Carrier
  | .scalar u v => if h : u = t then some (h ▸ v) else none
  | .vector .. => none

def vector? (t : ElementType) : Contribution → Option (List t.Carrier)
  | .vector u vs => if h : u = t then some (h ▸ vs) else none
  | .scalar .. => none

/-- What ranks call the type of a number in their complaints. -/
def scalarTypeName (t : ElementType) : String := t.code

def vectorTypeName (t : ElementType) : String := "alloc::vec::Vec<" ++ t.code ++ ">"

end Contribution

structure Message where
  elem : ElementType
  data : List elem.Carrier

def Message.data? (m : Message) (t : ElementType) : Option (List t.Carrier) :=
  if h : m.elem = t then some (h ▸ m.data) else none

/-- What a send or a receive gives back, to be waited for. -/
inductive Ticket where
  /-- The condition did not hold. -/
  | skipped
  /-- Sends are complete when they are issued. -/
  | sent
  | receive (source tag : Int)
  deriving DecidableEq, Repr

inductive Op where
  | rank
  | size
  | barrier
  | time
  | reduce (t : ElementType) (v : t.Carrier)
  | exclusiveScan (t : ElementType) (v : t.Carrier)
  | arrayReduce (t : ElementType) (data : List t.Carrier)
  | cumulativeSum (t : ElementType) (input output : List t.Carrier)
  | send (t : ElementType) (data : List t.Carrier) (peer tag : Int) (cond : Bool)
  | receive (peer tag : Int) (cond : Bool)
  /-- Waits for the ticket of the given number. -/
  | wait (ticket : Nat) (t : ElementType) (buffer : List t.Carrier) (cond : Bool)

inductive Answer where
  | number (n : Nat)
  | nothing
  | time (tick : Nat)
  | value (t : ElementType) (v : Except (Stop RunError) t.Carrier)
  /-- A buffer after the operation, whether it succeeded or not. -/
  | buffer (t : ElementType) (outcome : Except (Stop RunError) Unit) (data : List t.Carrier)
  | ticket (t : Except (Stop RunError) Ticket)

abbrev Slots := List (Option Contribution)

/-- All contributions read the same way, or the first rank that contributed
something else. `k` is the rank of the first slot. -/
def readSlots {α : Type} (rank : Nat) (typeName : String) (read : Contribution → Option α) :
    (k : Nat) → Slots → Except RunError (List α)
  | _, [] => .ok []
  | k, slot :: slots =>
    match slot.bind read with
    | none => .error (.collectiveMismatch rank (.contribution k typeName))
    | some a => do return a :: (← readSlots rank typeName read (k + 1) slots)

def gatheredScalars (rank : Nat) (t : ElementType) (slots : Slots) :
    Except RunError (List t.Carrier) :=
  readSlots rank (Contribution.scalarTypeName t) (Contribution.scalar? t) 0 slots

def gatheredVectors (rank : Nat) (t : ElementType) (slots : Slots) :
    Except RunError (List (List t.Carrier)) :=
  readSlots rank (Contribution.vectorTypeName t) (Contribution.vector? t) 0 slots

def lengthMismatch? {α : Type} (length : Nat) (rows : List (List α)) : Option (Nat × Nat) :=
  match rows.findIdx? fun row => row.length != length with
  | some peer => some (peer, (rows.getD peer []).length)
  | none => none

/-- The sum of all contributions. -/
def reduceAnswer (rank : Nat) (t : ElementType) (slots : Slots) :
    Except (Stop RunError) t.Carrier := do
  let all ← (gatheredScalars rank t slots).mapError .failed
  (t.sum all).mapError .fault

/-- The sum of the contributions of all lower ranks. -/
def exclusiveScanAnswer (rank : Nat) (t : ElementType) (slots : Slots) :
    Except (Stop RunError) t.Carrier := do
  let all ← (gatheredScalars rank t slots).mapError .failed
  (t.sum (all.take rank)).mapError .fault

/-- The sums of all columns in place of this rank's own list. -/
def arrayReduceAnswer (rank : Nat) (t : ElementType) (data : List t.Carrier) (slots : Slots) :
    Except (Stop RunError) Unit × List t.Carrier :=
  match gatheredVectors rank t slots with
  | .error e => (.error (.failed e), data)
  | .ok rows =>
    match lengthMismatch? data.length rows with
    | some (peer, length) =>
      (.error (.failed (.collectiveMismatch rank (.arrayLength data.length peer length))), data)
    | none =>
      let (outcome, sums) := t.columnSums rows 0 data
      (outcome.mapError .fault, sums)

/-- Running sums of this rank's input on top of the totals of all lower ranks. -/
def cumulativeSumAnswer (rank : Nat) (t : ElementType) (input output : List t.Carrier)
    (slots : Slots) : Except (Stop RunError) Unit × List t.Carrier :=
  match exclusiveScanAnswer rank t slots with
  | .error e => (.error e, output)
  | .ok start =>
    let (outcome, sums) := t.runningSums start input output
    (outcome.mapError .fault, sums)

/-- Copies a message into the front of a buffer. -/
def deliver (rank : Nat) (source : Int) (m : Message) (t : ElementType)
    (buffer : List t.Carrier) : Except (Stop RunError) Unit × List t.Carrier :=
  let fail cause := (.error (.failed (.collectiveMismatch rank cause)), buffer)
  match m.data? t with
  | none => fail (.message source t)
  | some data =>
    if buffer.length < data.length then fail (.messageLength data.length buffer.length)
    else (.ok (), data ++ buffer.drop data.length)

def checkPeer (size : Nat) (peer : Int) : Except (Stop RunError) Unit :=
  if 0 ≤ peer ∧ peer < size then .ok ()
  else .error (.failed (.unsupported (.peerOutside peer size)))

inductive Plan where
  /-- Nobody else is needed. -/
  | done (a : Answer)
  | clock
  | barrier
  | gather (c : Contribution)
  | send (peer tag : Int) (m : Message)
  | receive (source tag : Int)

/-- The first move of an operation. A cumulative sum needs room for its output
and the total of its input before it gathers. -/
def Op.plan (rank size : Nat) (tickets : List Ticket) : Op → Plan
  | .rank => .done (.number rank)
  | .size => .done (.number size)
  | .barrier => .barrier
  | .time => .clock
  | .reduce t v => .gather (.scalar t v)
  | .exclusiveScan t v => .gather (.scalar t v)
  | .arrayReduce t data => .gather (.vector t data)
  | .cumulativeSum t input output =>
    if output.length < input.length then
      .done (.buffer t
        (.error (.failed (.typeError (.shortOutput input.length output.length)))) output)
    else
      match t.sum input with
      | .error f => .done (.buffer t (.error (.fault f)) output)
      | .ok total => .gather (.scalar t total)
  | .send t data peer tag cond =>
    if !cond then .done (.ticket (.ok .skipped))
    else
      match checkPeer size peer with
      | .error e => .done (.ticket (.error e))
      | .ok () => .send peer tag ⟨t, data⟩
  | .receive peer tag cond =>
    if !cond then .done (.ticket (.ok .skipped))
    else .done (.ticket ((checkPeer size peer).map fun _ => .receive peer tag))
  | .wait k t buffer cond =>
    match tickets[k]?, cond with
    | some (.receive source tag), true => .receive source tag
    | _, _ => .done (.buffer t (.ok ()) buffer)

def Op.gathered (rank : Nat) (slots : Slots) : Op → Answer
  | .reduce t _ => .value t (reduceAnswer rank t slots)
  | .exclusiveScan t _ => .value t (exclusiveScanAnswer rank t slots)
  | .arrayReduce t data =>
    let (outcome, sums) := arrayReduceAnswer rank t data slots
    .buffer t outcome sums
  | .cumulativeSum t input output =>
    let (outcome, sums) := cumulativeSumAnswer rank t input output slots
    .buffer t outcome sums
  | _ => .nothing

def Op.received (rank : Nat) (source : Int) (m : Message) : Op → Answer
  | .wait _ t buffer _ =>
    let (outcome, after) := deliver rank source m t buffer
    .buffer t outcome after
  | _ => .nothing

/-- The ticket that an answer leaves for later waits; an error leaves one that
has nothing to wait for. -/
def Answer.ticket? : Answer → Option Ticket
  | .ticket (.ok t) => some t
  | .ticket (.error _) => some .skipped
  | _ => none

def Answer.faulted : Answer → Bool
  | .value _ (.error (.fault _)) | .buffer _ (.error (.fault _)) _ => true
  | .ticket (.error (.fault _)) => true
  | _ => false

end SpmdArrays.Spmd
