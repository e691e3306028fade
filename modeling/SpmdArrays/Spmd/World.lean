import SpmdArrays.Spmd.Op

/-!
Ranks that run side by side. They share one slot each, a barrier, and mailboxes.
A step is one atomic action of one rank: writing its slot, arriving at the
barrier, passing it, reading all slots, putting a message into a mailbox or
taking one out. A gather is a write, a rendezvous, a read, and a second
rendezvous, so that nobody writes a slot before all have read it.

Any order of steps is a possible run. `World.run` takes the first rank that can
move, again and again; every step brings its rank closer to its end, so the run
ends. What a rank is answered can decide what it does next.
-/

namespace SpmdArrays.Spmd

/-- How far a rank is inside its current operation. -/
inductive Phase where
  | start
  /-- The slot is written. -/
  | written
  /-- Arrived at the first rendezvous of the given generation. -/
  | gathering (generation : Nat)
  /-- All slots are written. -/
  | ready
  /-- The slots are read. -/
  | read (slots : Slots)
  /-- Arrived at the second rendezvous. -/
  | leaving (generation : Nat) (slots : Slots)
  /-- Arrived at a plain barrier. -/
  | waiting (generation : Nat)

/-- Atomic actions left inside the current operation, at most. -/
def Phase.left : Phase → Nat
  | .start => 6
  | .written => 5
  | .gathering _ => 4
  | .ready => 3
  | .read _ => 2
  | .leaving .. => 1
  | .waiting _ => 1

/-- A straight-line program has one step for each operation. A step makes its operation from
what the rank was answered before. It makes none if the rank does not get there, because an
error was passed on or a fault not caught; then the program is over. -/
abbrev Program := List (List Answer → Option Op)

namespace Program

def op? (p : Program) (answers : List Answer) : Option Op := p[answers.length]?.bind (· answers)

def ofOps (ops : List Op) : Program := ops.map fun op _ => some op

/-- The same program for a rank that catches no fault and unwinds at the first one. -/
def unwinding (p : Program) : Program :=
  p.map fun step answers => if answers.any Answer.faulted then none else step answers

theorem op?_ofOps (ops : List Op) (answers : List Answer) :
    (ofOps ops).op? answers = ops[answers.length]? := by
  rw [op?, ofOps, List.getElem?_map]
  cases ops[answers.length]? <;> rfl

end Program

structure Rank where
  program : Program
  phase : Phase := .start
  tickets : List Ticket := []
  answers : List Answer := []

namespace Rank

def op? (k : Rank) : Option Op := k.program.op? k.answers

/-- Atomic actions left, at most. -/
def left (k : Rank) : Nat := 6 * (k.program.length - k.answers.length) + k.phase.left

/-- The current operation is done. A fault is an answer like any other: whether the rank goes
on after it is up to its program. -/
def finish (k : Rank) (a : Answer) : Rank where
  program := k.program
  phase := .start
  tickets := k.tickets ++ a.ticket?.toList
  answers := k.answers ++ [a]

def enter (k : Rank) (p : Phase) : Rank := { k with phase := p }

end Rank

/-- A mailbox holds the messages from one rank to another under one tag. -/
structure Mailbox where
  source : Int
  target : Int
  tag : Int
  deriving DecidableEq, Repr

structure World where
  ranks : List Rank
  slots : Slots
  /-- Ranks that arrived at the barrier in the current generation. -/
  arrived : Nat := 0
  generation : Nat := 0
  mail : Mailbox → List Message := fun _ => []
  clock : Nat := 0

namespace World

def size (w : World) : Nat := w.ranks.length

/-- A world of the given size, at least one rank, with a program for each. -/
def launch (size : Nat) (programs : Nat → Program) : World where
  ranks := (List.range (max size 1)).map fun r => { program := programs r }
  slots := List.replicate (max size 1) none

/-- A world in which the operations of every rank are fixed beforehand. -/
def start (size : Nat) (programs : List (List Op)) : World :=
  launch size fun r => .ofOps (programs.getD r [])

def setRank (w : World) (r : Nat) (k : Rank) : World :=
  { w with ranks := w.ranks.set r k, clock := w.clock + 1 }

/-- Arrives at the barrier. The last rank to arrive opens it and goes on at
once; the others wait for the next generation. -/
def arrive (w : World) (r : Nat) (through : Rank) (wait : Nat → Rank) : World :=
  if w.arrived + 1 < w.size then
    { w.setRank r (wait w.generation) with arrived := w.arrived + 1 }
  else
    { w.setRank r through with arrived := 0, generation := w.generation + 1 }

def setMail (w : World) (box : Mailbox) (messages : List Message) : World :=
  { w with mail := fun b => if b = box then messages else w.mail b }

def begin (w : World) (r : Nat) (k : Rank) (op : Op) : Option World :=
  match op.plan r w.size k.tickets with
  | .done a => some (w.setRank r (k.finish a))
  | .clock => some (w.setRank r (k.finish (.time w.clock)))
  | .barrier => some (w.arrive r (k.finish .nothing) fun g => k.enter (.waiting g))
  | .gather c => some { w.setRank r (k.enter .written) with slots := w.slots.set r (some c) }
  | .send peer tag m =>
    let box := ⟨r, peer, tag⟩
    some ((w.setRank r (k.finish (.ticket (.ok .sent)))).setMail box (w.mail box ++ [m]))
  | .receive source tag =>
    let box := ⟨source, r, tag⟩
    match w.mail box with
    | [] => none
    | m :: rest => some ((w.setRank r (k.finish (op.received r source m))).setMail box rest)

/-- One atomic action of a rank; `none` if it cannot move now. -/
def step? (w : World) (r : Nat) : Option World :=
  match w.ranks[r]? with
  | none => none
  | some k =>
    match k.op? with
    | none => none
    | some op =>
      match k.phase with
      | .start => w.begin r k op
      | .written => some (w.arrive r (k.enter .ready) fun g => k.enter (.gathering g))
      | .gathering g => if w.generation = g then none else some (w.setRank r (k.enter .ready))
      | .ready => some (w.setRank r (k.enter (.read w.slots)))
      | .read slots =>
        some (w.arrive r (k.finish (op.gathered r slots)) fun g => k.enter (.leaving g slots))
      | .leaving g slots =>
        if w.generation = g then none else some (w.setRank r (k.finish (op.gathered r slots)))
      | .waiting g => if w.generation = g then none else some (w.setRank r (k.finish .nothing))

/-! ### Every step is progress -/

def left (w : World) : Nat := w.ranks.foldr (fun k n => k.left + n) 0

theorem foldr_left_set_lt {ks : List Rank} {r : Nat} {k k' : Rank} (h : ks[r]? = some k)
    (hlt : k'.left < k.left) :
    (ks.set r k').foldr (fun k n => k.left + n) 0 < ks.foldr (fun k n => k.left + n) 0 := by
  induction ks generalizing r with
  | nil => simp at h
  | cons a ks ih =>
    cases r with
    | zero =>
      simp only [List.getElem?_cons_zero, Option.some.injEq] at h
      subst h
      simpa using hlt
    | succ r =>
      simp only [List.getElem?_cons_succ] at h
      simpa using ih h

theorem length_lt_of_op? {k : Rank} {op : Op} (h : k.op? = some op) :
    k.answers.length < k.program.length := by
  obtain ⟨step, hstep, -⟩ := Option.bind_eq_some_iff.mp h
  exact (List.getElem?_eq_some_iff.mp hstep).1

theorem left_finish {k : Rank} {op : Op} (h : k.op? = some op) (a : Answer) :
    (k.finish a).left < k.left := by
  have hp : 1 ≤ k.phase.left := by cases k.phase <;> simp [Phase.left]
  have hlt := length_lt_of_op? h
  have hfinish : (k.finish a).left = 6 * (k.program.length - (k.answers.length + 1)) + 6 := by
    simp [Rank.left, Rank.finish, Phase.left]
  rw [hfinish, Rank.left]
  omega

theorem left_enter {k : Rank} {p : Phase} (hp : p.left < k.phase.left) :
    (k.enter p).left < k.left := by
  simp only [Rank.left, Rank.enter]
  omega

theorem left_setRank {w : World} {r : Nat} {k k' : Rank} (h : w.ranks[r]? = some k)
    (hlt : k'.left < k.left) : (w.setRank r k').left < w.left :=
  foldr_left_set_lt h hlt

theorem left_arrive {w : World} {r : Nat} {k through : Rank} {wait : Nat → Rank}
    (h : w.ranks[r]? = some k) (ht : through.left < k.left) (hw : ∀ g, (wait g).left < k.left) :
    (w.arrive r through wait).left < w.left := by
  unfold arrive
  split
  · exact left_setRank (w := w) h (hw _)
  · exact left_setRank (w := w) h ht

theorem left_begin {w v : World} {r : Nat} {k : Rank} {op : Op}
    (h : w.ranks[r]? = some k) (ht : k.op? = some op) (hs : k.phase = .start)
    (hv : w.begin r k op = some v) : v.left < w.left := by
  have hfin := fun a => left_setRank (w := w) h (left_finish ht a)
  have hent : ∀ {p : Phase}, p.left < 6 → (k.enter p).left < k.left :=
    fun hp => left_enter (by rw [hs]; exact hp)
  unfold begin at hv
  split at hv
  · cases hv; exact hfin _
  · cases hv; exact hfin _
  · cases hv
    exact left_arrive h (left_finish ht _) fun g => hent (by simp [Phase.left])
  · cases hv
    exact left_setRank (w := w) h (hent (by simp [Phase.left]))
  · cases hv; exact hfin _
  · simp only at hv
    split at hv
    · simp at hv
    · cases hv; exact hfin _

theorem left_step {w v : World} {r : Nat} (hv : w.step? r = some v) : v.left < w.left := by
  unfold step? at hv
  split at hv
  · simp at hv
  · rename_i k hk
    split at hv
    · simp at hv
    · rename_i op ht
      have hent : ∀ {p : Phase}, p.left < k.phase.left → (k.enter p).left < k.left := left_enter
      split at hv
      · rename_i hs
        exact left_begin hk ht hs hv
      · rename_i hs
        cases hv
        exact left_arrive hk (hent (by simp [hs, Phase.left]))
          fun g => hent (by simp [hs, Phase.left])
      · rename_i hs
        split at hv
        · simp at hv
        · cases hv
          exact left_setRank hk (hent (by simp [hs, Phase.left]))
      · rename_i hs
        cases hv
        exact left_setRank hk (hent (by simp [hs, Phase.left]))
      · rename_i hs
        cases hv
        exact left_arrive hk (left_finish ht _) fun g => hent (by simp [hs, Phase.left])
      · split at hv
        · simp at hv
        · cases hv
          exact left_setRank hk (left_finish ht _)
      · split at hv
        · simp at hv
        · cases hv
          exact left_setRank hk (left_finish ht _)

def moveFrom? (w : World) : List Nat → Option World
  | [] => none
  | r :: rs =>
    match w.step? r with
    | some v => some v
    | none => w.moveFrom? rs

theorem left_moveFrom {w v : World} {rs : List Nat} (hv : w.moveFrom? rs = some v) :
    v.left < w.left := by
  induction rs with
  | nil => simp [moveFrom?] at hv
  | cons r rs ih =>
    simp only [moveFrom?] at hv
    split at hv
    · rename_i u hu
      cases hv
      exact left_step hu
    · exact ih hv

/-- Runs until no rank can move. -/
def run (w : World) : World :=
  match _h : w.moveFrom? (List.range w.size) with
  | none => w
  | some v => run v
termination_by w.left
decreasing_by exact left_moveFrom _h

def answers (w : World) : List (List Answer) := w.ranks.map Rank.answers

end World

end SpmdArrays.Spmd
