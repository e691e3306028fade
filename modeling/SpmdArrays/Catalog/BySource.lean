import Std.Data.TreeMap

/-!
Data kept under a source and a path inside it. A source may be present without
any path. Both levels are in the order of their names.
-/

namespace SpmdArrays

structure BySource (α : Type) where
  sources : Std.TreeMap String (Std.TreeMap String α) := {}

namespace BySource

variable {α : Type}

def empty : BySource α := {}

def hasSource (m : BySource α) (source : String) : Bool := m.sources.contains source

def get? (m : BySource α) (source path : String) : Option α :=
  m.sources[source]?.bind fun paths => paths[path]?

def insert (m : BySource α) (source path : String) (a : α) : BySource α :=
  ⟨m.sources.insert source ((m.sources.getD source {}).insert path a)⟩

def addSource (m : BySource α) (source : String) : BySource α :=
  if m.hasSource source then m else ⟨m.sources.insert source {}⟩

def clearSource (m : BySource α) (source : String) : BySource α :=
  ⟨m.sources.insert source {}⟩

def eraseSource (m : BySource α) (source : String) : BySource α :=
  ⟨m.sources.erase source⟩

/-- All entries in the order of their sources and paths. -/
def toList (m : BySource α) : List (String × String × α) :=
  m.sources.toList.flatMap fun s => s.2.toList.map fun p => (s.1, p.1, p.2)

theorem get?_insert (m : BySource α) (source path : String) (a : α) (s p : String) :
    (m.insert source path a).get? s p =
      if source = s ∧ path = p then some a else m.get? s p := by
  unfold insert get?
  by_cases hs : source = s
  · subst hs
    by_cases hp : path = p
    · simp [hp]
    · cases h : m.sources[source]? with
      | none => simp [hp, h, Std.TreeMap.getD_eq_getD_getElem?]
      | some paths =>
        simp [hp, h, Std.TreeMap.getElem?_insert, Std.TreeMap.getD_eq_getD_getElem?]
  · simp [hs, Std.TreeMap.getElem?_insert]

theorem get?_clearSource (m : BySource α) (source s p : String) :
    (m.clearSource source).get? s p = if source = s then none else m.get? s p := by
  unfold clearSource get?
  by_cases hs : source = s <;> simp [hs, Std.TreeMap.getElem?_insert]

theorem get?_eraseSource (m : BySource α) (source s p : String) :
    (m.eraseSource source).get? s p = if source = s then none else m.get? s p := by
  unfold eraseSource get?
  by_cases hs : source = s <;> simp [hs, Std.TreeMap.getElem?_erase]

theorem get?_addSource (m : BySource α) (source s p : String) :
    (m.addSource source).get? s p = m.get? s p := by
  unfold addSource get?
  split
  · rfl
  · rename_i h
    by_cases hs : source = s
    · subst hs
      have hn : m.sources[source]? = none := by
        simpa [hasSource] using h
      simp [hn]
    · simp [hs, Std.TreeMap.getElem?_insert]

end BySource

end SpmdArrays
