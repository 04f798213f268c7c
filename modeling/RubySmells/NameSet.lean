/-!
# Sets of names

A finite set of names, kept as its strictly increasing list (names compare by
code point). The list is determined by the members (`NameSet.ext`), so two
sets with the same members are equal, and listing a set is reading off the
list.
-/

namespace RubySmells

/-- A finite set of names. -/
structure NameSet where
  /-- The members in increasing order. -/
  toList : List String
  /-- No member is listed twice or out of order. -/
  sorted : toList.Pairwise (· < ·)
  deriving DecidableEq

namespace NameSet

/-- The set without members. -/
def empty : NameSet := ⟨[], .nil⟩

instance : EmptyCollection NameSet := ⟨empty⟩

instance : Inhabited NameSet := ⟨empty⟩

instance : Membership String NameSet := ⟨fun s name => name ∈ s.toList⟩

instance (name : String) (s : NameSet) : Decidable (name ∈ s) :=
  inferInstanceAs (Decidable (name ∈ s.toList))

theorem mem_def {name : String} {s : NameSet} : name ∈ s ↔ name ∈ s.toList := Iff.rfl

@[simp] theorem not_mem_empty (name : String) : ¬ name ∈ (∅ : NameSet) :=
  List.not_mem_nil

/-! ## Adding and removing -/

/-- Puts a name at its place in an increasing list that does not hold it. -/
def insertSorted (name : String) : List String → List String
  | [] => [name]
  | x :: xs =>
    if name < x then name :: x :: xs
    else if name = x then x :: xs
    else x :: insertSorted name xs

theorem mem_insertSorted {name y : String} {xs : List String} :
    y ∈ insertSorted name xs ↔ y = name ∨ y ∈ xs := by
  induction xs with
  | nil => simp [insertSorted]
  | cons x xs ih =>
      simp only [insertSorted]
      split
      · simp
      · split
        · rename_i h
          subst h
          simp
        · simp only [List.mem_cons, ih]
          constructor
          · rintro (h | h | h)
            · exact .inr (.inl h)
            · exact .inl h
            · exact .inr (.inr h)
          · rintro (h | h | h)
            · exact .inr (.inl h)
            · exact .inl h
            · exact .inr (.inr h)

theorem pairwise_insertSorted {name : String} {xs : List String}
    (h : xs.Pairwise (· < ·)) : (insertSorted name xs).Pairwise (· < ·) := by
  induction xs with
  | nil => simp [insertSorted]
  | cons x xs ih =>
      have ⟨hx, hxs⟩ := List.pairwise_cons.1 h
      simp only [insertSorted]
      split
      · rename_i hlt
        refine List.pairwise_cons.2 ⟨fun y hy => ?_, h⟩
        rcases List.mem_cons.1 hy with rfl | hy
        · exact hlt
        · exact String.lt_trans hlt (hx y hy)
      · split
        · exact h
        · rename_i hnlt hne
          refine List.pairwise_cons.2 ⟨fun y hy => ?_, ih hxs⟩
          rcases mem_insertSorted.1 hy with rfl | hy
          · apply Decidable.byContradiction
            intro hn
            exact hne (String.le_antisymm (String.not_lt.1 hn) (String.not_lt.1 hnlt))
          · exact hx y hy

/-- The set with a name added. -/
def insert (s : NameSet) (name : String) : NameSet :=
  ⟨insertSorted name s.toList, pairwise_insertSorted s.sorted⟩

/-- The set with several names added. -/
def insertAll (s : NameSet) (names : List String) : NameSet :=
  names.foldl insert s

/-- The set of the names in a list. -/
def ofList (names : List String) : NameSet :=
  insertAll ∅ names

/-- The set with a name taken out. -/
def erase (s : NameSet) (name : String) : NameSet :=
  ⟨s.toList.filter (· ≠ name), s.sorted.filter _⟩

@[simp] theorem mem_insert {s : NameSet} {name y : String} :
    y ∈ s.insert name ↔ y = name ∨ y ∈ s :=
  mem_insertSorted

@[simp] theorem mem_insertAll {s : NameSet} {names : List String} {y : String} :
    y ∈ s.insertAll names ↔ y ∈ names ∨ y ∈ s := by
  induction names generalizing s with
  | nil => simp [insertAll]
  | cons name names ih =>
      show y ∈ (s.insert name).insertAll names ↔ _
      rw [ih]
      simp only [mem_insert, List.mem_cons, or_assoc, or_left_comm]

@[simp] theorem mem_ofList {names : List String} {y : String} :
    y ∈ ofList names ↔ y ∈ names := by
  simp [ofList]

@[simp] theorem mem_erase {s : NameSet} {name y : String} :
    y ∈ s.erase name ↔ y ∈ s ∧ y ≠ name := by
  simp [mem_def, erase]

/-! ## Equality -/

theorem eq_of_pairwise_of_mem {xs ys : List String} (hx : xs.Pairwise (· < ·))
    (hy : ys.Pairwise (· < ·)) (h : ∀ z, z ∈ xs ↔ z ∈ ys) : xs = ys := by
  induction xs generalizing ys with
  | nil =>
      cases ys with
      | nil => rfl
      | cons y ys => exact absurd ((h y).2 List.mem_cons_self) List.not_mem_nil
  | cons x xs ih =>
      cases ys with
      | nil => exact absurd ((h x).1 List.mem_cons_self) List.not_mem_nil
      | cons y ys =>
          have ⟨hx1, hx2⟩ := List.pairwise_cons.1 hx
          have ⟨hy1, hy2⟩ := List.pairwise_cons.1 hy
          have hxy : x = y := by
            rcases List.mem_cons.1 ((h x).1 List.mem_cons_self) with e | hm
            · exact e
            · rcases List.mem_cons.1 ((h y).2 List.mem_cons_self) with e | hm'
              · exact e.symm
              · exact absurd (hy1 x hm) (String.lt_asymm (hx1 y hm'))
          subst hxy
          congr 1
          refine ih hx2 hy2 fun z => ⟨fun hz => ?_, fun hz => ?_⟩
          · rcases List.mem_cons.1 ((h z).1 (List.mem_cons_of_mem _ hz)) with e | hm
            · exact absurd (e ▸ hx1 z hz) (String.lt_irrefl _)
            · exact hm
          · rcases List.mem_cons.1 ((h z).2 (List.mem_cons_of_mem _ hz)) with e | hm
            · exact absurd (e ▸ hy1 z hz) (String.lt_irrefl _)
            · exact hm

/-- Sets with the same members are equal. -/
@[ext] theorem ext {s t : NameSet} (h : ∀ name, name ∈ s ↔ name ∈ t) : s = t := by
  cases s with
  | mk xs hx =>
      cases t with
      | mk ys hy =>
          have : xs = ys := eq_of_pairwise_of_mem hx hy h
          subst this
          rfl

end NameSet

end RubySmells
