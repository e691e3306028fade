import SpmdArrays.Proofs.FileCalls.AsWritten
import SpmdArrays.Proofs.FileCalls.EmittedCalls

/-!
Which calls of a function are left when its file calls have been made positional. In a
function where every name has one assignment, and this one dominates the uses, the pass
comes to the assignment of a name before it comes to a use, so it knows by then what the
name is: the front end, its opening function, a handle, or a method of one. A call whose
callee is an opening function or a method is never left, then. Handles are known through
plain copies as well; a copy of the front end, of its opening function or of a method is
not, and calls through such a copy are left as they are.
-/

namespace SpmdArrays

namespace Expand

/-! ### One role for a name -/

/-- The statement has the form from which a name gets the role. -/
def Gives (role : Role) : Stmt → Prop
  | .assign _ (.global name) => name = .h5py ∧ role = .frontEnd
  | .assign _ (.attr _ name) =>
    (name = "File" ∧ role = .opener) ∨ ∃ m : Method, name = m.name ∧ role = .method m
  | .assign _ (.copy _) | .call .. => role = .handle
  | _ => False

theorem Method.name_inj {m m' : Method} (h : m.name = m'.name) : m = m' := by
  cases m <;> cases m' <;> first | rfl | simp [Method.name] at h

theorem Method.name_ne_file (m : Method) : m.name ≠ "File" := by
  cases m <;> decide

theorem Gives.unique {role role' : Role} {s : Stmt} (h : Gives role s) (h' : Gives role' s) :
    role = role' := by
  cases s with
  | call t callee args kws => exact h.trans h'.symm
  | store t index value => exact h.elim
  | assign t value =>
      cases value with
      | global name => exact h.2.trans h'.2.symm
      | copy source => exact h.trans h'.symm
      | attr base name =>
          rcases h with ⟨hname, rfl⟩ | ⟨m, hname, rfl⟩ <;>
            rcases h' with ⟨hname', rfl⟩ | ⟨m', hname', rfl⟩
          · rfl
          · exact absurd (hname'.symm.trans hname) m'.name_ne_file
          · exact absurd (hname.symm.trans hname') m.name_ne_file
          · rw [Method.name_inj (hname.symm.trans hname')]
      | _ => exact h.elim

theorem Role.eq_handle_of_travels {role : Role} (h : role.travels = true)
    (hrole : role ≠ .dataset) : role = .handle := by
  cases role with
  | handle => rfl
  | dataset => exact absurd rfl hrole
  | _ => cases h

theorem Makes.gives {pre : List Stmt} {s : Stmt} {role : Role} {x : String}
    (h : Makes pre s role x) (hrole : role ≠ .dataset) : Gives role s := by
  cases h with
  | frontEnd t => exact ⟨rfl, rfl⟩
  | opener t hb => exact Or.inl ⟨rfl, rfl⟩
  | openFile t args kws hc => exact rfl
  | method t m hb => exact Or.inr ⟨m, rfl, rfl⟩
  | createGroup t args kws hc => exact rfl
  | copy t hr hs => exact Role.eq_handle_of_travels hr hrole
  | _ => exact absurd rfl hrole

end Expand

namespace Function

open Expand

variable {f : Function} {role role' : Role} {x : String}

theorem Plays.exists_gives (h : f.Plays role x) (hrole : role ≠ .dataset) :
    ∃ s ∈ f.stmts, s.Assigns x ∧ Gives role s := by
  cases h with
  | frontEnd h => exact ⟨_, h, rfl, rfl, rfl⟩
  | opener h hb => exact ⟨_, h, rfl, Or.inl ⟨rfl, rfl⟩⟩
  | openFile h hc => exact ⟨_, h, rfl, rfl⟩
  | method h hb => exact ⟨_, h, rfl, Or.inr ⟨_, rfl, rfl⟩⟩
  | createGroup h hc => exact ⟨_, h, rfl, rfl⟩
  | copy h hr hs => exact ⟨_, h, rfl, Role.eq_handle_of_travels hr hrole⟩
  | constItem h hb => exact absurd rfl hrole
  | item h hb => exact absurd rfl hrole

/-- What is known was learned from statements of the function. -/
def Traced (f : Function) (facts : Facts) : Prop := ∃ pre, pre ⊆ f.stmts ∧ Tracks pre facts

theorem Traced.role_eq {facts : Facts} (h : f.Traced facts)
    (honce : (definedNames f.stmts).count x ≤ 1) (hplays : f.Plays role x)
    (hrole : role ≠ .dataset) (hhas : Has (facts.about x) role') (hrole' : role' ≠ .dataset) :
    role' = role := by
  obtain ⟨pre, hpre, htracks⟩ := h
  obtain ⟨s, hs, hsx, hgives⟩ := hplays.exists_gives hrole
  obtain ⟨hu, hmakes⟩ := htracks x role' hhas
  have hmem := hpre (List.mem_of_getElem? hu)
  cases eq_of_assigns honce hmem hs hmakes.assigns hsx
  exact (hmakes.gives hrole').unique hgives

end Function

namespace Expand

variable {c : FileScope} {st st' : Expansion} {s : Stmt} {out : List Stmt} {role : Role}
  {x : String}

theorem Expands.traced {f : Function} (h : Expands c st s out st') (hs : s ∈ f.stmts)
    (hst : f.Traced st.facts) : f.Traced st'.facts := by
  obtain ⟨pre, hpre, htracks⟩ := hst
  refine ⟨pre ++ [s], fun u hu => ?_, h.tracks htracks⟩
  rcases List.mem_append.mp hu with hu | hu
  · exact hpre hu
  · exact List.mem_singleton.mp hu ▸ hs

/-! ### Roles are not forgotten -/

theorem has_learn {facts : Facts} {name : String} {add : Known → Known}
    (hadd : ∀ k, Has k role → Has (add k) role) (h : Has (facts.about x) role) :
    Has ((facts.learn name add).about x) role := by
  rw [Facts.about_learn]
  split
  · next hx =>
      subst hx
      exact hadd _ h
  · exact h

theorem has_noteConst {facts : Facts} (v : Var) (lit : Literal) (h : Has (facts.about x) role) :
    Has ((facts.noteConst v lit).about x) role := by
  cases lit with
  | str text =>
      refine has_learn (fun k hk => ?_) h
      rcases role with _ | _ | _ | _ | (_ | _ | _) <;> exact hk
  | _ => exact h

theorem has_noteCopies {facts : Facts} (body : List Stmt) (h : Has (facts.about x) role) :
    Has ((facts.noteCopies body).about x) role := by
  refine Facts.noteCopies_induct (P := fun g => Has (g.about x) role) h ?_
  intro g target source _ hg
  refine has_learn (fun k hk => ?_) hg
  rcases role with _ | _ | _ | _ | (_ | _ | _) <;> exact hk

theorem isSome_orElse_right {α : Type} {a b : Option α} (h : b.isSome = true) :
    (a <|> b).isSome = true := by
  cases a with
  | none => exact h
  | some _ => rfl

theorem has_inherit {k source : Known} (h : Has k role) : Has (k.inherit source) role := by
  rcases role with _ | _ | _ | _ | (_ | _ | _)
  · exact h
  · exact h
  · exact isSome_orElse_right h
  · exact isSome_orElse_right h
  · exact h
  · exact h
  · exact h

theorem Expands.has (h : Expands c st s out st') (hx : Has (st.facts.about x) role) :
    Has (st'.facts.about x) role := by
  cases h with
  | frontEnd t =>
      refine has_learn (fun k hk => ?_) hx
      rcases role with _ | _ | _ | _ | (_ | _ | _) <;> first | rfl | exact hk
  | opener t base hb =>
      refine has_learn (fun k hk => ?_) hx
      rcases role with _ | _ | _ | _ | (_ | _ | _) <;> first | rfl | exact hk
  | method t base m hb hf =>
      refine has_learn (fun k hk => ?_) hx
      cases m <;> rcases role with _ | _ | _ | _ | (_ | _ | _) <;> first | rfl | exact hk
  | datasetVar t base v index hf =>
      refine has_learn (fun k hk => ?_) (has_noteConst v index hx)
      rcases role with _ | _ | _ | _ | (_ | _ | _) <;> first | rfl | exact hk
  | datasetKey t base key hf =>
      refine has_learn (fun k hk => ?_) (has_noteConst _ (.str key) hx)
      rcases role with _ | _ | _ | _ | (_ | _ | _) <;> first | rfl | exact hk
  | datasetItem t base index hf =>
      refine has_learn (fun k hk => ?_) hx
      rcases role with _ | _ | _ | _ | (_ | _ | _) <;> first | rfl | exact hk
  | tuple t items =>
      refine has_learn (fun k hk => ?_) hx
      rcases role with _ | _ | _ | _ | (_ | _ | _) <;> exact hk
  | copy t source => exact has_learn (fun k hk => has_inherit hk) hx
  | const t lit => exact has_noteConst t lit hx
  | openFile t callee args kws name hc hn =>
      refine has_learn (fun k hk => ?_) hx
      rcases role with _ | _ | _ | _ | (_ | _ | _) <;> first | rfl | exact hk
  | createDataset t callee args kws file name shape elem dims ho hx' hc hn hs he hd =>
      refine has_learn (fun k hk => ?_) hx
      rcases role with _ | _ | _ | _ | (_ | _ | _) <;> first | rfl | exact hk
  | createGroup t callee args kws file name ho hx' hy hc hn =>
      refine has_learn (fun k hk => ?_) hx
      rcases role with _ | _ | _ | _ | (_ | _ | _) <;> first | rfl | exact hk
  | _ => exact hx

/-! ### Roles are recognised -/

variable {t base callee source : Var} {args : List Var} {kws : List (String × Var)}

theorem has_learn_self {facts : Facts} {name : String} {add : Known → Known}
    (h : Has (add (facts.about name)) role) : Has ((facts.learn name add).about name) role := by
  rw [Facts.about_learn, if_pos rfl]
  exact h

theorem Plain.attr_cases {name : String} (h : Plain st (.attr base name)) :
    ((st.about base).isFrontEnd = true ∧ name ≠ "File") ∨
      ((st.about base).isFrontEnd = false ∧ (name = "keys" ∨ (st.about base).file = none)) := by
  cases h with
  | frontEndAttr hb hn => exact Or.inl ⟨hb, hn⟩
  | keys hb hf => exact Or.inr ⟨hb, Or.inl rfl⟩
  | attr hb hf => exact Or.inr ⟨hb, Or.inr hf⟩

theorem Expands.frontEnd_has (h : Expands c st (.assign t (.global .h5py)) out st') :
    Has (st'.facts.about t.name) .frontEnd := by
  cases h with
  | frontEnd t => exact has_learn_self rfl
  | plain t value hp =>
      cases hp with
      | global hne => exact absurd rfl hne

theorem Expands.opener_has (h : Expands c st (.assign t (.attr base "File")) out st')
    (hbase : Has (st.facts.about base.name) .frontEnd) :
    Has (st'.facts.about t.name) .opener := by
  generalize hs : Stmt.assign t (.attr base "File") = s at h
  cases h with
  | opener t base hb =>
      cases hs
      exact has_learn_self rfl
  | method t base m hb hf =>
      simp only [Stmt.assign.injEq, Expr.attr.injEq] at hs
      exact absurd hs.2.2.symm m.name_ne_file
  | plain t value hp =>
      cases hs
      rcases hp.attr_cases with ⟨-, hname⟩ | ⟨hfront, -⟩
      · exact absurd rfl hname
      · cases hbase.symm.trans hfront
  | _ => cases hs

/-- The base is a handle and nothing else, so its attribute is looked for among the methods. -/
theorem Expands.method_has {m : Method} (h : Expands c st (.assign t (.attr base m.name)) out st')
    (hfront : (st.about base).isFrontEnd = false) (hbase : Has (st.facts.about base.name) .handle) :
    Has (st'.facts.about t.name) (.method m) := by
  generalize hs : Stmt.assign t (.attr base m.name) = s at h
  cases h with
  | opener t base hb =>
      simp only [Stmt.assign.injEq, Expr.attr.injEq] at hs
      exact absurd hs.2.2 m.name_ne_file
  | method t base m' hb hf =>
      simp only [Stmt.assign.injEq, Expr.attr.injEq] at hs
      obtain ⟨rfl, rfl, hname⟩ := hs
      cases Method.name_inj hname
      refine has_learn_self ?_
      cases m <;> rfl
  | plain t value hp =>
      cases hs
      rcases hp.attr_cases with ⟨hfront', -⟩ | ⟨-, hname | hfile⟩
      · cases hfront.symm.trans hfront'
      · exact absurd hname (by cases m <;> decide)
      · rw [Has, show (st.facts.about base.name).file = none from hfile] at hbase
        cases hbase
  | _ => cases hs

theorem Expands.openFile_has (h : Expands c st (.call t callee args kws) out st')
    (hcallee : Has (st.facts.about callee.name) .opener) :
    Has (st'.facts.about t.name) .handle := by
  have hopens : (st.about callee).opensFiles = true := hcallee
  cases h with
  | openFile t callee args kws name hc hn => exact has_learn_self rfl
  | closeFile t callee args kws file ho hc => cases hopens.symm.trans ho
  | createDataset t callee args kws file name shape elem dims ho hx hc hn hs he hd =>
      cases hopens.symm.trans ho
  | createGroup t callee args kws file name ho hx hy hc hn => cases hopens.symm.trans ho
  | call t callee args kws hc => cases hopens.symm.trans hc.opens

theorem Expands.createGroup_has (h : Expands c st (.call t callee args kws) out st')
    (hcallee : Has (st.facts.about callee.name) (.method .createGroup))
    (honly : ∀ role, role ≠ .dataset → Has (st.facts.about callee.name) role →
      role = .method .createGroup) :
    Has (st'.facts.about t.name) .handle := by
  cases h with
  | openFile t callee args kws name hc hn => cases honly .opener nofun hc
  | closeFile t callee args kws file ho hc =>
      cases honly (.method .close) nofun (Option.isSome_of_mem hc)
  | createDataset t callee args kws file name shape elem dims ho hx hc hn hs he hd =>
      cases honly (.method .createDataset) nofun (Option.isSome_of_mem hc)
  | createGroup t callee args kws file name ho hx hy hc hn => exact has_learn_self rfl
  | call t callee args kws hc =>
      have hnone : (st.facts.about callee.name).makesGroup = none := hc.makesGroup
      simp [Has, hnone] at hcallee

theorem Expands.copy_has (h : Expands c st (.assign t (.copy source)) out st')
    (hsource : Has (st.facts.about source.name) .handle) :
    Has (st'.facts.about t.name) .handle := by
  cases h with
  | copy t source =>
      refine has_learn_self ?_
      obtain ⟨origin, horigin⟩ := Option.isSome_iff_exists.mp hsource
      simp [Has, Known.inherit, horigin]
  | plain t value hp => cases hp

end Expand

/-! ### What is known at a use -/

/-- The roles that the name plays are known, save for that of a dataset. -/
def Function.Recognises (f : Function) (facts : Facts) (x : String) : Prop :=
  ∀ role, role ≠ .dataset → f.Plays role x → Expand.Has (facts.about x) role

namespace Expand

variable {f : Function} {c : FileScope} {st st' : Expansion} {s : Stmt} {out : List Stmt}

/-- An assignment makes the roles of its name known, if those of the names that it uses are. -/
theorem Expands.recognises (h : Expands c st s out st') (hf : f.SingleAssignment)
    (hs : s ∈ f.stmts) (htraced : f.Traced st.facts)
    (huses : ∀ v ∈ s.uses, f.Recognises st.facts v.name) {x : String} (hsx : s.Assigns x) :
    f.Recognises st'.facts x := by
  intro role hrole hplays
  cases hplays with
  | frontEnd hmem =>
      obtain rfl := eq_of_assigns (hf.once _) hs hmem hsx rfl
      exact h.frontEnd_has
  | @opener t base hmem hbase =>
      obtain rfl := eq_of_assigns (hf.once _) hs hmem hsx rfl
      exact h.opener_has (huses base (List.mem_singleton_self _) .frontEnd nofun hbase)
  | @openFile t callee args kws hmem hcallee =>
      obtain rfl := eq_of_assigns (hf.once _) hs hmem hsx rfl
      exact h.openFile_has (huses callee (List.mem_cons_self ..) .opener nofun hcallee)
  | @method t base m hmem hbase =>
      obtain rfl := eq_of_assigns (hf.once _) hs hmem hsx rfl
      refine h.method_has ?_ (huses base (List.mem_singleton_self _) .handle nofun hbase)
      refine Bool.eq_false_iff.mpr fun hfront => ?_
      have hhas : Has (st.facts.about base.name) .frontEnd := hfront
      cases htraced.role_eq (hf.once _) hbase nofun hhas nofun
  | @createGroup t callee args kws hmem hcallee =>
      obtain rfl := eq_of_assigns (hf.once _) hs hmem hsx rfl
      refine h.createGroup_has
        (huses callee (List.mem_cons_self ..) (.method .createGroup) nofun hcallee) ?_
      intro role' hrole' hhas
      exact htraced.role_eq (hf.once _) hcallee nofun hhas hrole'
  | @copy t source role hmem htravels hsource =>
      obtain rfl := eq_of_assigns (hf.once _) hs hmem hsx rfl
      obtain rfl := Role.eq_handle_of_travels htravels hrole
      exact h.copy_has (huses source (List.mem_singleton_self _) .handle nofun hsource)
  | constItem _ _ => exact absurd rfl hrole
  | item _ _ => exact absurd rfl hrole

theorem Expands.keeps_recognised (h : Expands c st s out st') {x : String}
    (hx : f.Recognises st.facts x) : f.Recognises st'.facts x :=
  fun role hrole hplays => h.has (hx role hrole hplays)

theorem recognises_noteCopies {facts : Facts} (body : List Stmt) {x : String}
    (hx : f.Recognises facts x) : f.Recognises (facts.noteCopies body) x :=
  fun role hrole hplays => has_noteCopies body (hx role hrole hplays)

theorem traced_noteCopies {facts : Facts} (body : List Stmt) (h : f.Traced facts) :
    f.Traced (facts.noteCopies body) := by
  obtain ⟨pre, hpre, htracks⟩ := h
  exact ⟨pre, hpre, htracks.noteCopies body⟩

theorem recognises_of_not_mem (facts : Facts) {x : String} (hx : x ∉ definedNames f.stmts) :
    f.Recognises facts x := by
  intro role hrole hplays
  obtain ⟨u, hu, hux, -⟩ := hplays.exists_gives hrole
  exact absurd (mem_definedNames hu hux) hx

/-- Along a block, what is available at a place is known there. The names that are known at
its start are the seen ones. -/
theorem ExpandsRow.recognises {ss : List Stmt} {outs : List (List Stmt)}
    (h : ExpandsRow c st ss outs st') (hf : f.SingleAssignment) {l : Label} {b : Block}
    (hb : f.block? l = some b) (front : List Stmt) (hbody : b.body = front ++ ss)
    (seen : String → Prop) (hseen : ∀ x, f.Available l front x → seen x)
    (htraced : f.Traced st.facts) (hst : ∀ x, seen x → f.Recognises st.facts x) :
    (f.Traced st'.facts ∧ ∀ x, seen x ∨ x ∈ definedNames ss → f.Recognises st'.facts x) ∧
      ∀ out ∈ outs, ∃ s ∈ ss, ∃ st₁ st₂, Expands c st₁ s out st₂ ∧
        ∀ v ∈ s.uses, f.Recognises st₁.facts v.name := by
  induction h generalizing front seen with
  | nil st => exact ⟨⟨htraced, fun x hx => hst x (hx.resolve_right List.not_mem_nil)⟩, nofun⟩
  | @cons st st₁ st₂ s ss out outs hs hss ih =>
      have hbegins : f.Begins l (front ++ [s]) := ⟨b, hb, ss, by simp [hbody]⟩
      have huses : ∀ v ∈ s.uses, f.Recognises st.facts v.name := by
        intro v hv
        by_cases hmem : v.name ∈ definedNames f.stmts
        · exact hst _ (hseen _ (hf.uses l front s hbegins v hv hmem))
        · exact recognises_of_not_mem _ hmem
      have hst₁ : ∀ x, seen x ∨ s.Assigns x → f.Recognises st₁.facts x := by
        rintro x (hx | hx)
        · exact hs.keeps_recognised (hst x hx)
        · exact hs.recognises hf hbegins.mem_stmts htraced huses hx
      obtain ⟨⟨htraced', hend⟩, hrest⟩ := ih (front ++ [s]) (by simp [hbody])
        (fun x => seen x ∨ s.Assigns x)
        (fun x hx => (Function.available_append_singleton hx).imp_left (hseen x))
        (hs.traced hbegins.mem_stmts htraced) hst₁
      refine ⟨⟨htraced', fun x hx => hend x ?_⟩, fun o ho => ?_⟩
      · rw [definedNames_cons, List.mem_append, Option.mem_toList] at hx
        rcases hx with hx | hx | hx
        · exact Or.inl (Or.inl hx)
        · exact Or.inl (Or.inr hx)
        · exact Or.inr hx
      · rcases List.mem_cons.mp ho with rfl | ho
        · exact ⟨s, List.mem_cons_self .., st, st₁, hs, huses⟩
        · obtain ⟨s', hs', hexp⟩ := hrest o ho
          exact ⟨s', List.mem_cons_of_mem _ hs', hexp⟩

/-- Along the visits, each statement of a block that can be reached is looked at when the
roles of the names that it uses are known. -/
theorem Visits.recognises {vs : List Visit} (h : Visits c st vs st') (hf : f.SingleAssignment)
    (hblocks : ∀ v ∈ vs, f.block? v.label = some v.block) (seen : String → Prop)
    (hseen : ∀ us v ws, vs = us ++ v :: ws → f.Reachable v.label → ∀ x,
      f.Available v.label [] x →
        seen x ∨ ∃ u ∈ us, f.Reachable u.label ∧ x ∈ definedNames u.block.body)
    (htraced : f.Traced st.facts) (hst : ∀ x, seen x → f.Recognises st.facts x) :
    ∀ v ∈ vs, f.Reachable v.label → ∀ out ∈ v.outs, ∃ s ∈ v.block.body, ∃ st₁ st₂,
      Expands c st₁ s out st₂ ∧ ∀ w ∈ s.uses, f.Recognises st₁.facts w.name := by
  induction h generalizing seen with
  | nil st => exact nofun
  | @cons st st₁ st₂ v vs hrow hvs ih =>
      have hb := hblocks v (List.mem_cons_self ..)
      have htraced₀ := traced_noteCopies v.block.body htraced
      have hst₀ : ∀ x, seen x → f.Recognises (st.facts.noteCopies v.block.body) x :=
        fun x hx => recognises_noteCopies _ (hst x hx)
      have hblocks' : ∀ w ∈ vs, f.block? w.label = some w.block :=
        fun w hw => hblocks w (List.mem_cons_of_mem _ hw)
      by_cases hreach : f.Reachable v.label
      · obtain ⟨⟨htraced₁, hst₁⟩, hout⟩ := hrow.recognises hf hb [] rfl seen
          (fun x hx => (hseen [] v vs rfl hreach x hx).resolve_right
            fun ⟨u, hu, _⟩ => List.not_mem_nil hu) htraced₀ hst₀
        refine List.forall_mem_cons.mpr ⟨fun _ => hout, ?_⟩
        refine ih hblocks' (fun x => seen x ∨ x ∈ definedNames v.block.body) ?_ htraced₁ hst₁
        intro us w ws hvs' hw x hx
        rcases hseen (v :: us) w ws (by rw [hvs']; rfl) hw x hx with hx | ⟨u, hu, hu', hx⟩
        · exact Or.inl (Or.inl hx)
        · rcases List.mem_cons.mp hu with rfl | hu
          · exact Or.inl (Or.inr hx)
          · exact Or.inr ⟨u, hu, hu', hx⟩
      · -- nothing is asked of the block, but what is known stays known
        obtain ⟨htraced₁, hst₁⟩ := (hrow.invariant
          (I := fun st => f.Traced st.facts ∧ ∀ x, seen x → f.Recognises st.facts x)
          (fun st₁ s out st₂ hs _ hexp hst =>
            ⟨hexp.traced (Function.mem_stmts hb hs) hst.1,
              fun x hx => hexp.keeps_recognised (hst.2 x hx)⟩) ⟨htraced₀, hst₀⟩).1
        refine List.forall_mem_cons.mpr ⟨fun hreach' => absurd hreach' hreach, ?_⟩
        refine ih hblocks' seen ?_ htraced₁ hst₁
        intro us w ws hvs' hw x hx
        refine (hseen (v :: us) w ws (by rw [hvs']; rfl) hw x hx).imp_right ?_
        rintro ⟨u, hu, hu', hx⟩
        rcases List.mem_cons.mp hu with rfl | hu
        · exact absurd hu' hreach
        · exact ⟨u, hu, hu', hx⟩

theorem NotRecognised.not_has {k : Known} (h : NotRecognised k) :
    ¬ Has k .opener ∧ ∀ m, ¬ Has k (.method m) := by
  refine ⟨fun hk => ?_, fun m hk => ?_⟩
  · cases hk.symm.trans h.opens
  · cases m with
    | close => simp [Has, h.closes] at hk
    | createDataset => simp [Has, h.makesDataset] at hk
    | createGroup => simp [Has, h.makesGroup] at hk

end Expand

/-! ### Functions -/

namespace Function

open Expand

variable {f g e : Function} {catalog : Option Inspector} {vs : List Visit} {st : Expansion}
  {l : Label} {b : Block} {row rest : List Stmt} {t callee : Var} {args : List Var}
  {kws : List (String × Var)}

theorem Reachable.of_strictlyDominates {a : Label} (h : f.Reachable l)
    (hdom : f.StrictlyDominates a l) : f.Reachable a := by
  obtain ⟨w, hw⟩ := h
  obtain ⟨-, w₂, -, hw₂⟩ := hw.exists_of_mem (hdom w hw)
  exact ⟨w₂, hw₂⟩

/-- The blocks on every walk to a block are visited before it. -/
theorem Expanded.dominator_before (h : f.Expanded catalog vs st e) {us ws : List Visit}
    {v : Visit} (hvs : vs = us ++ v :: ws) (hv : f.Reachable v.label) {a : Label}
    (hdom : f.StrictlyDominates a v.label) (hb : f.block? a = some b) :
    ∃ u ∈ us, u.label = a ∧ u.block = b := by
  have hblocks := fun w hw => (h.visited w hw).1
  have hlt : v.label < f.blocks.size :=
    (Array.getElem?_eq_some_iff.mp (hblocks v (by simp [hvs]))).1
  have halt : a < f.blocks.size := (Array.getElem?_eq_some_iff.mp hb).1
  have hsub := (sublist_order_of_strictlyDominates hv hdom).filter (· < f.blocks.size)
  rw [List.filter_eq_self.mpr (by simp [halt, hlt]), ← h.order, hvs, List.map_append,
    List.map_cons] at hsub
  have hnodup := h.nodup_labels
  rw [hvs, List.map_append, List.map_cons] at hnodup
  obtain ⟨u, hu, rfl⟩ := List.mem_map.mp (mem_of_sublist_pair hsub hnodup)
  refine ⟨u, hu, rfl, ?_⟩
  rw [hblocks u (by simp [hvs, hu])] at hb
  exact Option.some.inj hb

/-- In a block that can be reached, a call that is left plays no part in file access, and any
other one has its entry point loaded. -/
theorem Expanded.left_or_loaded (h : f.Expanded catalog vs st e) (hf : f.SingleAssignment)
    (hl : f.Reachable l) (hb : e.block? l = some b)
    (hbody : b.body = row ++ .call t callee args kws :: rest) :
    (∃ b₀, f.block? l = some b₀ ∧ .call t callee args kws ∈ b₀.body ∧
      ¬ f.Plays .opener callee.name ∧ ∀ m, ¬ f.Plays (.method m) callee.name) ∨
      ∃ p table, LoadsEntry row callee table p := by
  obtain ⟨v, hv, rfl, rfl⟩ := h.exists_visit hb
  obtain ⟨before, front, back, hout, rfl⟩ := exists_of_flatten_eq hbody
  obtain ⟨s, hs, st₁, st₂, hexp, huses⟩ := h.visits.recognises hf
    (fun v hv => (h.visited v hv).1) (fun _ => False)
    (fun us v ws hvs hv x hx => by
      rcases hx with hx | ⟨a, b, hdom, hb, hx⟩
      · cases hx
      · obtain ⟨u, hu, rfl, rfl⟩ := h.dominator_before hvs hv hdom hb
        exact Or.inr ⟨u, hu, hv.of_strictlyDominates hdom, hx⟩)
    ⟨[], List.nil_subset _, tracks_empty⟩ (fun _ => False.elim) v hv hl _ hout
  have hall : SourcedAll (fun _ => True) st₁.facts := fun x =>
    ⟨fun _ _ => trivial, fun _ _ => trivial, fun _ _ => trivial, fun _ _ => ⟨trivial, trivial⟩⟩
  rcases hexp.callsLoaded (fun _ _ => trivial) hall with ⟨heq, hleft⟩ | hcalls
  · left
    obtain ⟨rfl, rfl, rfl⟩ : front = [] ∧ s = .call t callee args kws ∧ back = [] := by
      cases front with
      | nil =>
          cases heq
          exact ⟨rfl, rfl, rfl⟩
      | cons u front => simp at heq
    have hnot := (hleft t callee args kws rfl).not_has
    have hcallee := huses callee (List.mem_cons_self ..)
    exact ⟨v.block, (h.visited v hv).1, hs, fun hplays => hnot.1 (hcallee _ nofun hplays),
      fun m hplays => hnot.2 m (hcallee _ nofun hplays)⟩
  · right
    obtain ⟨p, table, hload⟩ := hcalls front t callee args kws back rfl
    exact ⟨p, table, hload.loads.append_row before⟩

theorem Expanded.successors_eq (h : f.Expanded catalog vs st e) (l : Label) :
    e.withoutDead.successors l = f.successors l := by
  rw [successors, successors, block?_withoutDead]
  cases hb : e.block? l with
  | none =>
      have hf : f.block? l = none := by
        rw [block?, Array.getElem?_eq_none_iff, ← h.size]
        exact Array.getElem?_eq_none_iff.mp hb
      rw [hf]
      rfl
  | some b =>
      obtain ⟨v, hv, rfl, rfl⟩ := h.exists_visit hb
      rw [(h.visited v hv).1]
      rfl

theorem Expanded.reachable (h : f.Expanded catalog vs st e) (hl : e.withoutDead.Reachable l) :
    f.Reachable l := by
  have hsize : e.withoutDead.blocks.size = f.blocks.size := by
    rw [withoutDead, Array.size_map, h.size]
  have hentry : e.withoutDead.entry = f.entry := by
    change e.entry = f.entry
    rw [h.frame]
  obtain ⟨w, hw⟩ := hl
  refine ⟨w, ?_⟩
  induction hw with
  | start hlt =>
      rw [hentry] at hlt ⊢
      exact .start (hsize ▸ hlt)
  | step _ hs hlt ih => exact .step ih (h.successors_eq _ ▸ hs) (hsize ▸ hlt)

/-- A call in a block that can be reached of a function whose file calls were made positional
goes to an entry point that the block has loaded, or else it was there before, and then its
callee is neither the opening function of the front end nor a method of a handle, through
whichever copies the handle was passed on. -/
theorem file_calls_all_replaced (hf : f.SingleAssignment) (hg : f.expandFiles catalog = .ok g)
    (hl : g.Reachable l) (hb : g.block? l = some b)
    (hbody : b.body = row ++ .call t callee args kws :: rest) :
    (∃ b₀, f.block? l = some b₀ ∧ .call t callee args kws ∈ b₀.body ∧
      ¬ f.Plays .opener callee.name ∧ ∀ m, ¬ f.Plays (.method m) callee.name) ∨
      ∃ p table, LoadsEntry row callee table p := by
  obtain ⟨vs, st, e, h, rfl⟩ := exists_expanded hg
  obtain ⟨b', row', rest', hb', hbody', rfl⟩ := exists_block_of_withoutDead hb hbody
  refine (h.left_or_loaded hf (h.reachable hl) hb' hbody').imp_right ?_
  rintro ⟨p, table, hloads⟩
  exact ⟨p, table, (hloads.withoutDead hb' hbody').2⟩

/-! ### Copies of handles, and copies of anything else -/

/-- Makes a group through a copy of a handle, closes it through a copy of its own, and asks
for the keys of the file. -/
def closeCopiedGroup : Function where
  name := "main"
  blocks := #[
    { body := [
        .assign ⟨0, "m", ⟨1, 1⟩⟩ (.global .h5py),
        .assign ⟨0, "open", ⟨2, 1⟩⟩ (.attr ⟨0, "m", ⟨2, 1⟩⟩ "File"),
        .assign ⟨0, "n", ⟨3, 1⟩⟩ (.const (.str "a.h5")),
        .call ⟨0, "f", ⟨4, 1⟩⟩ ⟨0, "open", ⟨4, 1⟩⟩ [⟨0, "n", ⟨4, 1⟩⟩] [],
        .assign ⟨0, "h", ⟨5, 1⟩⟩ (.copy ⟨0, "f", ⟨5, 1⟩⟩)]
      term := .jump 1 },
    { body := [
        .assign ⟨0, "make", ⟨6, 1⟩⟩ (.attr ⟨0, "h", ⟨6, 1⟩⟩ "create_group"),
        .assign ⟨0, "k", ⟨7, 1⟩⟩ (.const (.str "runs")),
        .call ⟨0, "made", ⟨8, 1⟩⟩ ⟨0, "make", ⟨8, 1⟩⟩ [⟨0, "k", ⟨8, 1⟩⟩] [],
        .assign ⟨0, "g", ⟨9, 1⟩⟩ (.copy ⟨0, "made", ⟨9, 1⟩⟩),
        .assign ⟨0, "close", ⟨10, 1⟩⟩ (.attr ⟨0, "g", ⟨10, 1⟩⟩ "close"),
        .call ⟨0, "closed", ⟨11, 1⟩⟩ ⟨0, "close", ⟨11, 1⟩⟩ [] [],
        .assign ⟨0, "keys", ⟨12, 1⟩⟩ (.attr ⟨0, "f", ⟨12, 1⟩⟩ "keys"),
        .call ⟨0, "names", ⟨13, 1⟩⟩ ⟨0, "keys", ⟨13, 1⟩⟩ [] []]
      term := .ret none }]

theorem closeCopiedGroup_singleAssignment : closeCopiedGroup.SingleAssignment := by
  have htable : closeCopiedGroup.Tabled ([[], [0]].getD · []) := by
    constructor <;> decide +kernel
  have hstart : closeCopiedGroup.Walk [] 0 := .start (by decide)
  refine (htable.ssa fun l hl => ?_).singleAssignment
  match l, hl with
  | 0, _ => exact ⟨_, hstart⟩
  | 1, _ => exact ⟨_, hstart.step (by decide) (by decide)⟩

theorem order_closeCopiedGroup : closeCopiedGroup.order = [0, 1] := by
  simp [closeCopiedGroup, order, reachOrder, BlockGraph.search, successors, block?,
    Terminator.successors]
  decide

def closeCopiedGroupLeft : Block where
  body :=
    let c := closeCopiedGroup.fileScope none
    .assign ⟨0, "k", ⟨7, 1⟩⟩ (.const (.str "runs")) ::
      callCode c .createGroup [⟨0, "h", ⟨6, 1⟩⟩, ⟨0, "k", ⟨8, 1⟩⟩] ⟨0, "made", ⟨8, 1⟩⟩ 4 ++
      .assign ⟨0, "g", ⟨9, 1⟩⟩ (.copy ⟨0, "made", ⟨9, 1⟩⟩) ::
      callCode c .closeFile [⟨0, "g", ⟨10, 1⟩⟩] ⟨0, "closed", ⟨11, 1⟩⟩ 6 ++
      [.assign ⟨0, "keys", ⟨12, 1⟩⟩ (.attr ⟨0, "f", ⟨12, 1⟩⟩ "keys"),
        .call ⟨0, "names", ⟨13, 1⟩⟩ ⟨0, "keys", ⟨13, 1⟩⟩ [] []]
  term := .ret none

theorem expandFiles_closeCopiedGroup :
    ∃ g, closeCopiedGroup.expandFiles none = .ok g ∧
      g.blocks = #[{
          body := .assign ⟨0, "n", ⟨3, 1⟩⟩ (.const (.str "a.h5")) ::
            openCode (closeCopiedGroup.fileScope none) ⟨0, "f", ⟨4, 1⟩⟩ ⟨0, "n", ⟨4, 1⟩⟩ 0 none ++
            [.assign ⟨0, "h", ⟨5, 1⟩⟩ (.copy ⟨0, "f", ⟨5, 1⟩⟩)]
          term := .jump 1 }, closeCopiedGroupLeft] ∧
      g.params = [] ∧ g.entry = 0 := by
  refine exists_expandFiles_blocks 10 #[{
      body := closeCopiedGroup.stmts.take 3 ++
        openCode (closeCopiedGroup.fileScope none) ⟨0, "f", ⟨4, 1⟩⟩ ⟨0, "n", ⟨4, 1⟩⟩ 0 none ++
        [.assign ⟨0, "h", ⟨5, 1⟩⟩ (.copy ⟨0, "f", ⟨5, 1⟩⟩)]
      term := .jump 1 }, {
      body := (closeCopiedGroup.stmts.drop 5).take 2 ++
        (closeCopiedGroupLeft.body.drop 1).take 4 ++ (closeCopiedGroup.stmts.drop 9).take 1 ++
        closeCopiedGroupLeft.body.drop 5
      term := .ret none }] order_closeCopiedGroup ?_ ?_
  · decide +kernel
  · decide +kernel

/-- The two calls for the group have their entry points loaded; the one for the keys is left,
which is neither opening nor a method that is known. -/
theorem closeCopiedGroup_calls_replaced :
    closeCopiedGroup.SingleAssignment ∧
      ∃ g, closeCopiedGroup.expandFiles none = .ok g ∧ g.Reachable 1 ∧
        g.block? 1 = some closeCopiedGroupLeft ∧
        ∀ row t callee args kws rest,
          closeCopiedGroupLeft.body = row ++ .call t callee args kws :: rest →
            (∃ b, closeCopiedGroup.block? 1 = some b ∧ .call t callee args kws ∈ b.body ∧
              ¬ closeCopiedGroup.Plays .opener callee.name ∧
              ∀ m, ¬ closeCopiedGroup.Plays (.method m) callee.name) ∨
              ∃ p table, LoadsEntry row callee table p := by
  obtain ⟨g, hg, hblocks, -, hentry⟩ := expandFiles_closeCopiedGroup
  have hb : g.block? 1 = some closeCopiedGroupLeft := by simp [block?, hblocks]
  have hl : g.Reachable 1 := by
    refine ⟨[g.entry], .step (.start ?_) ?_ ?_⟩
    · simp [hentry, hblocks]
    · simp [hentry, successors, block?, hblocks, Terminator.successors]
    · simp [hblocks]
  refine ⟨closeCopiedGroup_singleAssignment, g, hg, hl, hb, ?_⟩
  intro row t callee args kws rest hbody
  exact file_calls_all_replaced closeCopiedGroup_singleAssignment hg hl hb hbody

/-- Opens a file through a copy of the front end and through a copy of its opening function,
and closes one through a copy of the method. -/
def callThroughCopies : Function where
  name := "main"
  blocks := #[
    { body := [
        .assign ⟨0, "m", ⟨1, 1⟩⟩ (.global .h5py),
        .assign ⟨0, "mm", ⟨2, 1⟩⟩ (.copy ⟨0, "m", ⟨2, 1⟩⟩),
        .assign ⟨0, "n", ⟨3, 1⟩⟩ (.const (.str "a.h5")),
        .assign ⟨0, "start", ⟨4, 1⟩⟩ (.attr ⟨0, "mm", ⟨4, 1⟩⟩ "File"),
        .call ⟨0, "a", ⟨5, 1⟩⟩ ⟨0, "start", ⟨5, 1⟩⟩ [⟨0, "n", ⟨5, 1⟩⟩] [],
        .assign ⟨0, "open", ⟨6, 1⟩⟩ (.attr ⟨0, "m", ⟨6, 1⟩⟩ "File"),
        .assign ⟨0, "again", ⟨7, 1⟩⟩ (.copy ⟨0, "open", ⟨7, 1⟩⟩),
        .call ⟨0, "b", ⟨8, 1⟩⟩ ⟨0, "again", ⟨8, 1⟩⟩ [⟨0, "n", ⟨8, 1⟩⟩] [],
        .call ⟨0, "f", ⟨9, 1⟩⟩ ⟨0, "open", ⟨9, 1⟩⟩ [⟨0, "n", ⟨9, 1⟩⟩] [],
        .assign ⟨0, "close", ⟨10, 1⟩⟩ (.attr ⟨0, "f", ⟨10, 1⟩⟩ "close"),
        .assign ⟨0, "end", ⟨11, 1⟩⟩ (.copy ⟨0, "close", ⟨11, 1⟩⟩),
        .call ⟨0, "closed", ⟨12, 1⟩⟩ ⟨0, "end", ⟨12, 1⟩⟩ [] []]
      term := .ret none }]

theorem callThroughCopies_singleAssignment : callThroughCopies.SingleAssignment := by
  have htable : callThroughCopies.Tabled fun _ => [] := by
    constructor <;> decide +kernel
  refine (htable.ssa fun l hl => ?_).singleAssignment
  match l, hl with
  | 0, _ => exact ⟨_, .start (by decide)⟩

/-- Only the call of the opening function itself is replaced, and nothing becomes dead. -/
def callThroughCopiesLeft : Block where
  body := callThroughCopies.stmts.take 8 ++
    openCode (callThroughCopies.fileScope none) ⟨0, "f", ⟨9, 1⟩⟩ ⟨0, "n", ⟨9, 1⟩⟩ 0 none ++
    callThroughCopies.stmts.drop 9
  term := .ret none

theorem expandFiles_callThroughCopies :
    ∃ g, callThroughCopies.expandFiles none = .ok g ∧ g.blocks = #[callThroughCopiesLeft] ∧
      g.params = [] ∧ g.entry = 0 :=
  exists_expandFiles_blocks 10 #[callThroughCopiesLeft] (order_eq_singleton rfl)
    (by decide +kernel) (by decide +kernel)

/-- The calls through a copy of the front end, of its opening function and of a method are
left as they were, with all that they rest on. -/
theorem callThroughCopies_left :
    callThroughCopies.SingleAssignment ∧
      ∃ g, callThroughCopies.expandFiles none = .ok g ∧ g.Reachable 0 ∧
        g.block? 0 = some callThroughCopiesLeft ∧
        ∀ s ∈ callThroughCopies.stmts, s ∈ callThroughCopiesLeft.body ∨
          s = .call ⟨0, "f", ⟨9, 1⟩⟩ ⟨0, "open", ⟨9, 1⟩⟩ [⟨0, "n", ⟨9, 1⟩⟩] [] := by
  obtain ⟨g, hg, hblocks, -, hentry⟩ := expandFiles_callThroughCopies
  refine ⟨callThroughCopies_singleAssignment, g, hg, ⟨[], hentry ▸ .start ?_⟩, ?_, ?_⟩
  · simp [hentry, hblocks]
  · simp [block?, hblocks]
  · decide +kernel

end Function

end SpmdArrays
