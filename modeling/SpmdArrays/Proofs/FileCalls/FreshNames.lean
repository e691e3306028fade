import SpmdArrays.Proofs.FileCalls.Recognition
import SpmdArrays.Proofs.Program.Assignments
import SpmdArrays.Proofs.Text.Numerals

/-!
Names of temporaries. A name that was or will be handed out from some number on
has a dollar sign, a stem, a point and a number in front of it; a function whose
names are all of another form can never meet a temporary of its own expansion.
The counter only goes up while statements are looked at.
-/

namespace SpmdArrays

theorem append_cons_inj {α : Type} {a : α} {l₁ l₂ r₁ r₂ : List α}
    (h : l₁ ++ a :: r₁ = l₂ ++ a :: r₂) (h₁ : a ∉ r₁) (h₂ : a ∉ r₂) : l₁ = l₂ ∧ r₁ = r₂ := by
  rcases List.append_eq_append_iff.mp h with ⟨c, rfl, hc⟩ | ⟨c, rfl, hc⟩
  · cases c with
    | nil =>
        cases hc
        exact ⟨(List.append_nil _).symm, rfl⟩
    | cons x c =>
        cases hc
        exact absurd (List.mem_append_right _ (List.mem_cons_self ..)) h₁
  · cases c with
    | nil =>
        cases hc
        exact ⟨List.append_nil _, rfl⟩
    | cons x c =>
        cases hc
        exact absurd (List.mem_append_right _ (List.mem_cons_self ..)) h₂

/-- Stem and number of a temporary can be read off its name: no point stands
behind the one in front of the number. -/
theorem Var.tempName_inj {stem stem' : String} {n n' : Nat}
    (h : Var.tempName stem n = Var.tempName stem' n') : stem = stem' ∧ n = n' := by
  have hpoint : ∀ k : Nat, '.' ∉ (toString k).toList := fun k hk => by
    have hdigit := Text.isDigit_of_mem_toString hk
    revert hdigit
    decide
  have hlist : ('$' :: stem.toList) ++ '.' :: (toString n).toList =
      ('$' :: stem'.toList) ++ '.' :: (toString n').toList := by
    simpa [Var.tempName, String.toList_append] using congrArg String.toList h
  obtain ⟨hstem, hnum⟩ := append_cons_inj hlist (hpoint n) (hpoint n')
  exact ⟨String.toList_inj.mp (List.cons.inj hstem).2,
    Text.toString_inj (String.toList_inj.mp hnum)⟩

/-- The name of a temporary with a number from `n` on, under any stem. -/
def GeneratedFrom (n : Nat) (x : String) : Prop := ∃ stem k, n ≤ k ∧ x = Var.tempName stem k

theorem GeneratedFrom.mono {m n : Nat} (h : m ≤ n) {x : String} (hx : GeneratedFrom n x) :
    GeneratedFrom m x := by
  obtain ⟨stem, k, hk, rfl⟩ := hx
  exact ⟨stem, k, Nat.le_trans h hk, rfl⟩

theorem generatedFrom_temp (c : FileScope) (stem : String) (loc : Loc) {m n : Nat} (h : m ≤ n) :
    GeneratedFrom m (Expand.temp c stem loc n).name :=
  ⟨stem, n, h, rfl⟩

theorem not_generatedFrom_of_head {x : String} (h : x.toList.head? ≠ some '$') (n : Nat) :
    ¬ GeneratedFrom n x := by
  rintro ⟨stem, k, -, rfl⟩
  apply h
  simp [Var.tempName, String.toList_append]

def Stmt.vars (s : Stmt) : List Var := s.target?.toList ++ s.uses

namespace Function

def Mentions (f : Function) (x : String) : Prop :=
  ∃ b ∈ f.blocks.toList,
    (∃ s ∈ b.body, ∃ v ∈ s.vars, v.name = x) ∨ ∃ v ∈ b.term.uses, v.name = x

/-- No name of the function is one that a temporary of it will get. -/
def TempsUnused (f : Function) : Prop := ∀ x, f.Mentions x → ¬ GeneratedFrom f.nextTemp x

/-- A function that uses no compiler names is safe whatever its counter says. -/
theorem tempsUnused_of_not_isTemp {f : Function}
    (h : ∀ b ∈ f.blocks.toList, (∀ s ∈ b.body, ∀ v ∈ s.vars, v.isTemp = false) ∧
      ∀ v ∈ b.term.uses, v.isTemp = false) : f.TempsUnused := by
  have hvar : ∀ v : Var, v.isTemp = false → ¬ GeneratedFrom f.nextTemp v.name := by
    intro v hv
    apply not_generatedFrom_of_head
    simpa [Var.isTemp] using hv
  rintro x ⟨b, hb, ⟨s, hs, v, hv, rfl⟩ | ⟨v, hv, rfl⟩⟩
  · exact hvar v ((h b hb).1 s hs v hv)
  · exact hvar v ((h b hb).2 v hv)

end Function

namespace Expand

variable {c : FileScope} {st st' : Expansion} {s : Stmt} {out : List Stmt}

theorem Expands.nextTemp_le (h : Expands c st s out st') : st.nextTemp ≤ st'.nextTemp := by
  cases h <;> simp [Expansion.skip, Expansion.learn]

end Expand

end SpmdArrays
