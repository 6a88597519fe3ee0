/-!
# Assignments

An assignment gives Boolean values to finitely many names.  It is kept as a
list in ascending order of the names, so equal assignments are equal lists.
-/

namespace Switching

/-- Finitely many names with their values, in strictly ascending order of the
names. -/
structure Assignment where
  bindings : List (String × Bool)
  ascending : bindings.Pairwise (fun a b => a.1 < b.1)

namespace Assignment

instance : EmptyCollection Assignment :=
  ⟨⟨[], .nil⟩⟩

instance : Inhabited Assignment :=
  ⟨∅⟩

instance : DecidableEq Assignment := fun a b =>
  if same : a.bindings = b.bindings then
    .isTrue (by cases a; cases b; cases same; rfl)
  else
    .isFalse (fun equal => same (equal ▸ rfl))

/-- The value of a name, if it has one. -/
def value? (assignment : Assignment) (name : String) : Option Bool :=
  assignment.bindings.lookup name

/-- Put a binding in its place, or replace the binding of the same name. -/
def insertBinding (name : String) (value : Bool) :
    List (String × Bool) → List (String × Bool)
  | [] => [(name, value)]
  | (other, old) :: rest =>
      if name < other then (name, value) :: (other, old) :: rest
      else if name = other then (name, value) :: rest
      else (other, old) :: insertBinding name value rest

private theorem mem_insertBinding {name : String} {value : Bool} :
    ∀ {bindings : List (String × Bool)} {binding : String × Bool},
      binding ∈ insertBinding name value bindings →
        binding.1 = name ∨ binding ∈ bindings
  | [], binding, mem => by
      simp only [insertBinding, List.mem_singleton] at mem
      exact .inl (congrArg Prod.fst mem)
  | (other, old) :: rest, binding, mem => by
      unfold insertBinding at mem
      split at mem
      · rcases List.mem_cons.mp mem with rfl | mem
        · exact .inl rfl
        · exact .inr mem
      · split at mem
        · rcases List.mem_cons.mp mem with rfl | mem
          · exact .inl rfl
          · exact .inr (List.mem_cons_of_mem _ mem)
        · rcases List.mem_cons.mp mem with rfl | mem
          · exact .inr List.mem_cons_self
          · rcases mem_insertBinding mem with same | mem
            · exact .inl same
            · exact .inr (List.mem_cons_of_mem _ mem)

private theorem lt_of_not_lt_of_ne {a b : String} (notLt : ¬ a < b) (ne : a ≠ b) : b < a :=
  String.not_le.mp fun le => ne (String.le_antisymm le (String.not_lt.mp notLt))

private theorem pairwise_insertBinding {name : String} {value : Bool} :
    ∀ {bindings : List (String × Bool)},
      bindings.Pairwise (fun a b => a.1 < b.1) →
        (insertBinding name value bindings).Pairwise (fun a b => a.1 < b.1)
  | [], _ => by simp [insertBinding]
  | (other, old) :: rest, ascending => by
      have ⟨below, restAscending⟩ := List.pairwise_cons.mp ascending
      unfold insertBinding
      split
      · rename_i less
        refine List.pairwise_cons.mpr ⟨fun binding mem => ?_, ascending⟩
        rcases List.mem_cons.mp mem with rfl | mem
        · exact less
        · exact String.lt_trans less (below _ mem)
      · rename_i notLess
        split
        · rename_i same
          exact List.pairwise_cons.mpr
            ⟨fun binding mem => same ▸ below _ mem, restAscending⟩
        · rename_i differ
          refine List.pairwise_cons.mpr
            ⟨fun binding mem => ?_, pairwise_insertBinding restAscending⟩
          rcases mem_insertBinding mem with same | mem
          · exact same ▸ lt_of_not_lt_of_ne notLess differ
          · exact below _ mem

/-- Give a name a value, replacing any earlier one. -/
def insert (assignment : Assignment) (name : String) (value : Bool) : Assignment :=
  ⟨insertBinding name value assignment.bindings,
    pairwise_insertBinding assignment.ascending⟩

/-- The assignment that makes the given bindings in order, so that the last
value of a repeated name stands. -/
def ofList (bindings : List (String × Bool)) : Assignment :=
  bindings.foldl (fun assignment binding => assignment.insert binding.1 binding.2) ∅

@[simp]
theorem value?_empty (name : String) : (∅ : Assignment).value? name = none :=
  rfl

private theorem lookup_cons_eq_ite (name other : String) (value : Bool)
    (rest : List (String × Bool)) :
    ((name, value) :: rest).lookup other =
      if other = name then some value else rest.lookup other := by
  by_cases same : other = name
  · simp [same]
  · have differ : (other == name) = false := beq_eq_false_iff_ne.mpr same
    simp only [List.lookup_cons, differ, if_neg same]

private theorem lookup_insertBinding (name other : String) (value : Bool) :
    ∀ bindings : List (String × Bool), (insertBinding name value bindings).lookup other =
      if other = name then some value else bindings.lookup other
  | [] => lookup_cons_eq_ite name other value []
  | (first, old) :: rest => by
      unfold insertBinding
      split
      · exact lookup_cons_eq_ite name other value _
      · split
        · rename_i replaced
          by_cases same : other = name <;>
            simp only [lookup_cons_eq_ite, ← replaced, same, if_true, if_false]
        · rename_i kept
          rw [lookup_cons_eq_ite, lookup_cons_eq_ite, lookup_insertBinding]
          by_cases here : other = first
          · have differ : other ≠ name := fun same => kept (same ▸ here)
            simp [here, here ▸ differ]
          · simp [here]

@[simp]
theorem value?_insert (assignment : Assignment) (name other : String) (value : Bool) :
    (assignment.insert name value).value? other =
      if other = name then some value else assignment.value? other :=
  lookup_insertBinding name other value assignment.bindings

end Assignment

end Switching
