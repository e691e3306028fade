import SpmdArrays.Proofs.FileCalls.DeadCode
import SpmdArrays.Proofs.FileCalls.IndexVariables
import SpmdArrays.Proofs.FileCalls.Introspection
import SpmdArrays.Proofs.FileCalls.MirroredSteps

/-!
Making file calls positional preserves what a function does. The run as written and a
run of the statements that stand for it go on together statement by statement, block by
block and around every loop; dropping what is dead afterwards takes nothing away from
the second run.
-/

namespace SpmdArrays

/-! ### Blocks as written -/

namespace Front

variable {σ : Type}

theorem body_cons_apply (d : Device σ) (c : FileScope) (known : List Stmt → Facts)
    (front : List Stmt) (s : Stmt) (rest : List Stmt) (m : FrontMachine σ) :
    body d c known front (s :: rest) m =
      match stmt d c (known front) s m with
      | .error e n => .error e n
      | .ok () n => body d c known (front ++ [s]) rest n := by
  rw [body, Service.bind_apply]
  cases stmt d c (known front) s m <;> rfl

theorem blocks_succ_apply (d : Device σ) (c : FileScope) (known : Label → List Stmt → Facts)
    (f : Function) (steps : Nat) (l : Label) (m : FrontMachine σ) :
    blocks d c known f (steps + 1) l m =
      match f.block? l with
      | none => .error (.failed (.unsupported (.missingBlock l))) m
      | some b =>
        match body d c (known l) [] b.body m with
        | .error e n => .error e n
        | .ok () n =>
          match Exec.Next.of n.env b.term with
          | .error e => .error (.failed e) n
          | .ok (.goto l) => blocks d c known f steps l n
          | .ok (.done v) => .ok v n := by
  rw [blocks]
  cases f.block? l with
  | none => rfl
  | some b =>
      simp only [Service.bind_apply]
      cases body d c (known l) [] b.body m with
      | error e n => rfl
      | ok u n =>
          have hget : (get : Front σ (FrontMachine σ)) n = .ok n n := rfl
          simp only [hget]
          cases Exec.Next.of n.env b.term with
          | error e => rfl
          | ok next => cases next <;> rfl

end Front

namespace Expand

open Exec (Covers)

variable {σ : Type} {d : Device σ} {f : Function} {catalog : Option Inspector} {facts : Facts}
  {args : List Value} {s : σ} {m : FrontMachine (σ × List Request)}
  {n : Machine (σ × List Request)} (hf : f.Ssa) (hnames : f.NamesApart)
  (hkeys : f.IndexVarsHold d catalog args s) (hplace : f.FrontEndInPlace)

section

include hf hnames hkeys hplace

/-- The rest of a block: the machines stay together, and the run as written comes to the
end of the block. -/
theorem Sited.covered {l : Label} {front rest out : List Stmt} {st : Expansion} {b : Block}
    (h : Sited f catalog facts l front st rest out) (hb : f.block? l = some b)
    (hbody : b.body = front ++ rest) (hm : Mirrors f facts l front m n)
    (hcomes : f.ComesTo d catalog args s l front m) :
    Covers FrontMachine.requests Machine.requests
      (fun m n => Mirrors f facts l b.body m n ∧ f.ComesTo d catalog args s l b.body m)
      (Front.body d.recording (f.fileScope catalog) (f.factsAt catalog l) front rest m)
      (Exec.body d.recording (out.filter (staysVisible facts)) n) := by
  induction rest generalizing front st out m n with
  | nil =>
      cases h
      rw [List.append_nil] at hbody
      subst hbody
      exact ⟨rfl, hm, hcomes⟩
  | cons u rest ih =>
      obtain ⟨out₁, st', out₂, rfl, hturn, hrest⟩ := h.turn hb hbody
      have hkey : ∀ t base index v, u = .assign t (.constItem base index (some v)) →
          m.env[v.name]? = some (.ofLiteral index) := by
        rintro t base index v rfl
        exact hkeys l front m t base index v hcomes hturn.begins
      have hstep : Covered d f catalog facts l front u st out₁ m n :=
        hturn.covered hf hnames hm hplace hkey
      rw [Covered, ← hturn.facts] at hstep
      rw [List.filter_append, Exec.body_append_apply, Front.body_cons_apply]
      cases hu : Front.stmt d.recording (f.fileScope catalog) (f.factsAt catalog l front) u m with
      | error e m' =>
          rw [hu] at hstep
          refine List.IsPrefix.trans hstep ?_
          cases Exec.body d.recording (out₁.filter (staysVisible facts)) n with
          | error e' n' => exact List.prefix_refl _
          | ok _ n' => exact Exec.body_requests d _ n'
      | ok _ m' =>
          rw [hu] at hstep
          cases ho : Exec.body d.recording (out₁.filter (staysVisible facts)) n with
          | error e' n' => rw [ho] at hstep; exact hstep.elim
          | ok _ n' =>
              rw [ho] at hstep
              exact ih hrest (hbody.trans (List.append_cons ..)) hstep.2
                (hcomes.step hturn.begins hu)

end

include hf hnames hplace in
/-- Both runs leave a block in the same way. -/
theorem Mirrors.next_eq {l : Label} {b : Block} {st : Expansion} (hm : Mirrors f facts l b.body m n)
    (hsite : Site f facts l b.body st) (hb : f.block? l = some b) :
    Exec.Next.of m.env b.term = Exec.Next.of n.env b.term := by
  have hagree : Env.Agree (fun x => ∃ v ∈ b.term.uses, v.name = x) m.env n.env := by
    rintro x ⟨v, hv, rfl⟩
    have hgiven : f.Given l b.body v.name := hf.termUses l b hb v hv
    have hgen : ¬ GeneratedFrom f.nextTemp v.name :=
      hnames.unused v.name ⟨b, Function.mem_blocks_of_block? hb, Or.inr ⟨v, hv, rfl⟩⟩
    obtain ⟨sense, hfinal, -⟩ := hsite.sense_of_given hgiven
    refine (hm.names v.name sense hgiven hgen hfinal).agree ?_
    rw [← hfinal.isHidden_eq]
    exact hsite.visible_term hf hplace hb rfl hv
  exact hagree.next fun v hv => ⟨v, hv, rfl⟩

variable {bs : Array Block} {final : Expansion}
  (h : blocks (f.fileScope catalog) f.blocks f.order { nextTemp := f.nextTemp } = .ok (bs, final))

include hf hnames hkeys hplace h in
/-- The runs go on together from block to block. -/
theorem covered_blocks (steps : Nat) {l : Label} (hdevice : m.device = n.device)
    (hm : ∀ b, f.block? l = some b → Mirrors f final.facts l [] m n)
    (hcomes : f.ComesTo d catalog args s l [] m) :
    Covers FrontMachine.requests Machine.requests (fun m n => m.device = n.device)
      (Front.blocks d.recording (f.fileScope catalog) (f.factsAt catalog) f steps l m)
      (Exec.blocks d.recording
        (Function.keeping { f with blocks := bs, nextTemp := final.nextTemp }
          (staysVisible final.facts)) steps l n) := by
  induction steps generalizing l m n with
  | zero => exact FrontMachine.requests_le hdevice
  | succ steps ih =>
      rw [Front.blocks_succ_apply]
      cases hb : f.block? l with
      | none =>
          exact (FrontMachine.requests_le hdevice).trans (Exec.blocks_requests d _ (steps + 1) l n)
      | some b =>
          obtain ⟨st, out, hsited, hout⟩ := exists_sited hf hnames h hb
          obtain ⟨st', hsite⟩ := hsited.site_end
          have hkept : (Function.keeping { f with blocks := bs, nextTemp := final.nextTemp }
              (staysVisible final.facts)).block? l =
                some { b with body := out.filter (staysVisible final.facts) } := by
            rw [Function.block?, Function.keeping, Array.getElem?_map, hout]
            rfl
          have hbody := hsited.covered hf hnames hkeys hplace hb rfl (hm b hb) hcomes
          simp only
          cases hrun : Front.body d.recording (f.fileScope catalog) (f.factsAt catalog l) []
              b.body m with
          | error e m' =>
              rw [hrun] at hbody
              exact List.IsPrefix.trans hbody (Exec.first_block_requests d hkept steps n)
          | ok _ m' =>
              rw [hrun] at hbody
              rw [Exec.blocks_succ_apply, hkept]
              simp only
              cases hrun' : Exec.body d.recording (out.filter (staysVisible final.facts)) n with
              | error e' n' => rw [hrun'] at hbody; exact hbody.elim
              | ok _ n' =>
                  rw [hrun'] at hbody
                  obtain ⟨-, hm', hcomes'⟩ := hbody
                  simp only [← hm'.next_eq hf hnames hplace hsite hb]
                  cases hnext : Exec.Next.of m'.env b.term with
                  | error e => exact FrontMachine.requests_le hm'.device
                  | ok next =>
                      cases next with
                      | done v => exact ⟨rfl, hm'.device⟩
                      | goto k =>
                          refine ih hm'.device (fun b' hb' => ?_) (hcomes'.jump hb hnext)
                          exact hm'.jump hb (Exec.Next.mem_successors hnext) hb'

end Expand

/-! ### Functions -/

namespace Function

variable {σ : Type}

theorem StandsFor.trans {r r' r'' : Except (Stop RunError) (Option Value) × σ × List Request}
    (h : StandsFor r r') (h' : StandsFor r' r'') : StandsFor r r'' := by
  rcases r with ⟨e | v, t⟩
  · rcases r' with ⟨e' | v', t'⟩
    · exact List.IsPrefix.trans h h'
    · cases h'
      exact h
  · cases h
    exact h'

theorem covers_toMachine {α : Type}
    {R : Machine (σ × List Request) → Machine (σ × List Request) → Prop}
    {r : EStateM.Result (Stop RunError) (FrontMachine (σ × List Request)) α}
    {r' : EStateM.Result (Stop RunError) (Machine (σ × List Request)) α}
    (h : Exec.Covers FrontMachine.requests Machine.requests (fun m n => R m.toMachine n) r r') :
    Exec.Covers Machine.requests Machine.requests R (Exec.mapState FrontMachine.toMachine r)
      r' := by
  cases r with
  | error e m => exact h
  | ok a m =>
      cases r' with
      | error e n => exact h
      | ok b n => exact h

variable {d : Device σ} {f g : Function} {catalog : Option Inspector} {args : List Value} {s : σ}

theorem recorded_run_expandFiles (hf : f.Ssa) (hnames : f.NamesApart)
    (hkeys : f.IndexVarsHold d catalog args s) (hplace : f.FrontEndInPlace)
    (hg : f.expandFiles catalog = .ok g) :
    StandsFor (f.runAsWritten d catalog args s) (g.run d.recording args (s, [])) := by
  obtain ⟨bs, final, h, rfl⟩ := expandFiles_ok hg
  rw [← withoutDead_visible hf hnames hplace h]
  refine StandsFor.trans ?_ (recorded_run_withoutDead d _ args s)
  have hstart : ∀ b, f.block? f.entry = some b →
      Expand.Mirrors f final.facts f.entry [] (f.beginAsWritten args s) (f.begin args (s, [])) := by
    intro b hb
    obtain ⟨st, out, hsited, -⟩ := Expand.exists_sited hf hnames h hb
    exact Expand.mirrors_begin (Array.getElem?_eq_some_iff.mp hb).1 hsited.site args s
  have hrun := Expand.covered_blocks hf hnames hkeys hplace h stepLimit rfl hstart .start
  exact standsFor_of_covers (fun _ _ hdevice => hdevice) (covers_toMachine hrun)

/-- Making file calls positional preserves what a function does: if it returns as it is
written, it returns the same afterwards, after the same requests and with the device in
the same state; if it stops, the requests that it has made by then are those with which
the other run begins. -/
theorem run_expandFiles (hf : f.Ssa) (hnames : f.NamesApart) (hplace : f.FrontEndInPlace)
    (hg : f.expandFiles catalog = .ok g) (d : Device σ) (args : List Value) (s : σ)
    (hkeys : f.IndexVarsHold d catalog args s) :
    match f.runAsWritten d catalog args s with
    | (.ok v, t, asked) => g.run d args s = (.ok v, t) ∧ g.requests d args s = asked
    | (.error _, _, asked) => asked <+: g.requests d args s := by
  have h := recorded_run_expandFiles hf hnames hkeys hplace hg
  rw [run_eq_of_recording d g args s, requests]
  revert h
  rcases f.runAsWritten d catalog args s with ⟨e | v, t, asked⟩
  · exact fun h => h
  · intro h
    rw [show g.run d.recording args (s, []) = (.ok v, t, asked) from h]
    exact ⟨rfl, rfl⟩

/-- Reads a dataset over and over, until nothing of it is left. -/
def readAgain : Function where
  name := "again"
  blocks := #[
    { body := [
        .assign ⟨0, "m", ⟨1, 1⟩⟩ (.global .h5py),
        .assign ⟨0, "open", ⟨2, 1⟩⟩ (.attr ⟨0, "m", ⟨2, 1⟩⟩ "File"),
        .assign ⟨0, "source", ⟨3, 1⟩⟩ (.const (.str "stock.h5")),
        .call ⟨0, "f", ⟨4, 1⟩⟩ ⟨0, "open", ⟨4, 1⟩⟩ [⟨0, "source", ⟨4, 1⟩⟩] [],
        .assign ⟨0, "key", ⟨5, 1⟩⟩ (.const (.str "prices")),
        .assign ⟨0, "d", ⟨6, 1⟩⟩
          (.constItem ⟨0, "f", ⟨6, 1⟩⟩ (.str "prices") (some ⟨0, "key", ⟨6, 1⟩⟩)),
        .assign ⟨0, "abi", ⟨7, 1⟩⟩ (.global .ioAbi),
        .assign ⟨0, "size", ⟨8, 1⟩⟩ (.attr ⟨0, "abi", ⟨8, 1⟩⟩ "size"),
        .assign ⟨0, "zero", ⟨9, 1⟩⟩ (.const (.int 0))]
      term := .jump 1 },
    { body := [
        .assign ⟨0, "e", ⟨10, 1⟩⟩ (.copy ⟨0, "d", ⟨10, 1⟩⟩),
        .assign ⟨0, "x", ⟨11, 1⟩⟩ (.constItem ⟨0, "e", ⟨11, 1⟩⟩ (.slice .full) none),
        .call ⟨0, "left", ⟨12, 1⟩⟩ ⟨0, "size", ⟨12, 1⟩⟩
          [⟨0, "f", ⟨12, 1⟩⟩, ⟨0, "key", ⟨12, 1⟩⟩, ⟨0, "zero", ⟨12, 1⟩⟩] []]
      term := .branch ⟨0, "left", ⟨13, 1⟩⟩ 1 2 },
    { body := [
        .assign ⟨0, "close", ⟨14, 1⟩⟩ (.attr ⟨0, "f", ⟨14, 1⟩⟩ "close"),
        .call ⟨0, "closed", ⟨15, 1⟩⟩ ⟨0, "close", ⟨15, 1⟩⟩ [] []]
      term := .ret none }]

/-- Announces one element less each time, and delivers what is asked for. -/
def dwindling : Device Nat where
  answer q left :=
    match q with
    | .size .. => (.ok ⟨left, #[]⟩, left - 1)
    | .read _ _ _ _ _ dest => (.ok ⟨0, dest⟩, left)
    | _ => (.ok ⟨0, #[]⟩, left)

theorem order_readAgain : readAgain.order = [0, 1, 2] := by
  simp [readAgain, order, reachOrder, BlockGraph.search, successors, block?, Terminator.successors]
  decide

theorem readAgain_ssa : readAgain.Ssa := by
  have htable : readAgain.Tabled ([[], [0], [0, 1]].getD · []) := by
    constructor <;> decide +kernel
  have hstart : readAgain.Walk [] 0 := .start (by decide)
  have hloop : readAgain.Walk [0] 1 := hstart.step (by decide) (by decide)
  have hend : readAgain.Walk [1, 0] 2 := hloop.step (by decide) (by decide)
  refine htable.ssa fun l hl => ?_
  match l, hl with
  | 0, _ => exact ⟨_, hstart⟩
  | 1, _ => exact ⟨_, hloop⟩
  | 2, _ => exact ⟨_, hend⟩

theorem readAgain_namesApart : readAgain.NamesApart where
  unused := tempsUnused_of_not_isTemp (by decide +kernel)
  params := nofun

def readAgainRoles : List (Expand.Role × String) :=
  [(.frontEnd, "m"), (.opener, "open"), (.handle, "f"), (.dataset, "d"), (.dataset, "e"),
    (.method .close, "close")]

theorem readAgain_plays {role : Expand.Role} {x : String} (h : readAgain.Plays role x) :
    (role, x) ∈ readAgainRoles := by
  induction h with
  | frontEnd h => simp_all [stmts, readAgain, readAgainRoles]
  | opener h _ ih => simp_all [stmts, readAgain, readAgainRoles]
  | openFile h _ ih =>
      simp [stmts, readAgain, readAgainRoles] at h ih ⊢
      grind
  | @method t base m h _ ih =>
      cases m <;> simp_all [stmts, readAgain, readAgainRoles, Expand.Method.name]
  | createGroup _ _ ih => simp [readAgainRoles] at ih
  | constItem h _ ih =>
      simp [stmts, readAgain, readAgainRoles] at h ih ⊢
      grind
  | item h _ _ => simp [stmts, readAgain] at h
  | copy h _ _ ih =>
      simp [stmts, readAgain, readAgainRoles] at h ih ⊢
      grind

theorem readAgain_inPlace : readAgain.FrontEndInPlace where
  head s hs v hv role hrole := by
    have hall : ∀ s ∈ readAgain.stmts, ∀ v ∈ s.head?, ∀ p ∈ readAgainRoles, p.2 = v.name →
        s.inTable p.1 = true := by decide +kernel
    exact hall s hs v hv _ (readAgain_plays hrole) rfl
  operand s hs v hv role hrole := by
    have hall : ∀ s ∈ readAgain.stmts, ∀ v ∈ s.operands, ∀ p ∈ readAgainRoles, p.2 = v.name →
        p.1 = .handle := by decide +kernel
    exact hall s hs v hv _ (readAgain_plays hrole) rfl
  term b hb v hv role hrole := by
    have hall : ∀ b ∈ readAgain.blocks.toList, ∀ v ∈ b.term.uses, ∀ p ∈ readAgainRoles,
        p.2 = v.name → p.1 = .handle := by decide +kernel
    exact hall b hb v hv _ (readAgain_plays hrole) rfl

theorem readAgain_literals (t base : Var) (index : Literal) (v : Var)
    (h : .assign t (.constItem base index (some v)) ∈ readAgain.stmts) :
    readAgain.HoldsLiteral v.name index := by
  simp [stmts, readAgain] at h
  obtain ⟨-, -, rfl, rfl⟩ := h
  exact .const (t := ⟨0, "key", ⟨5, 1⟩⟩) (by simp [stmts, readAgain])

def returnedAfter (entries : List EntryPoint) :
    Except (Stop RunError) (Option Value) × Nat × List Request → Bool
  | (.ok none, _, asked) => asked.map Request.entry = entries
  | _ => false

theorem exists_of_returnedAfter {entries : List EntryPoint}
    {r : Except (Stop RunError) (Option Value) × Nat × List Request}
    (h : returnedAfter entries r = true) :
    ∃ left asked, r = (.ok none, left, asked) ∧ asked.map Request.entry = entries := by
  rcases r with ⟨e | v, left, asked⟩
  · cases h
  · cases v with
    | some v => cases h
    | none => exact ⟨left, asked, rfl, of_decide_eq_true h⟩

theorem readAgain_returnedAfter : returnedAfter
    [.openFile, .size, .read, .size, .size, .read, .size, .closeFile]
    (readAgain.runAsWritten dwindling (some stock.inspect) [] 3) = true := by
  rw [runAsWritten, factsAt, order_readAgain]
  decide +kernel

/-- The loop is left in its second round, both as it is written and afterwards. -/
theorem readAgain_preserved :
    readAgain.Ssa ∧ readAgain.NamesApart ∧ readAgain.FrontEndInPlace ∧
      readAgain.IndexVarsHold dwindling (some stock.inspect) [] 3 ∧
      ∃ g left asked, readAgain.expandFiles (some stock.inspect) = .ok g ∧
        readAgain.runAsWritten dwindling (some stock.inspect) [] 3 = (.ok none, left, asked) ∧
        asked.map Request.entry =
          [.openFile, .size, .read, .size, .size, .read, .size, .closeFile] ∧
        g.run dwindling [] 3 = (.ok none, left) ∧ g.requests dwindling [] 3 = asked := by
  have hkeys : readAgain.IndexVarsHold dwindling (some stock.inspect) [] 3 :=
    indexVarsHold_of_literals readAgain_ssa readAgain_literals
  obtain ⟨g, hg⟩ : ∃ g, readAgain.expandFiles (some stock.inspect) = .ok g :=
    exists_expandFiles order_readAgain (by decide +kernel)
  obtain ⟨left, asked, hrun, hasked⟩ := exists_of_returnedAfter readAgain_returnedAfter
  have h := run_expandFiles readAgain_ssa readAgain_namesApart readAgain_inPlace hg dwindling [] 3
    hkeys
  rw [hrun] at h
  exact ⟨readAgain_ssa, readAgain_namesApart, readAgain_inPlace, hkeys, g, left, asked, hg, hrun,
    hasked, h⟩

end Function

end SpmdArrays
