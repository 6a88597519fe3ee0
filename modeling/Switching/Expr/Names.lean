import Switching.Expr.Basic

/-!
# Names in ascending order

Tables and circuits list the variables of expressions in ascending order of
their code points.
-/

namespace Switching

/-- Insert a name into an ascending list of names. -/
def insertName (name : String) : List String → List String
  | [] => [name]
  | other :: rest => if name ≤ other then name :: other :: rest else other :: insertName name rest

/-- Sort names in ascending order. -/
def sortNames : List String → List String
  | [] => []
  | name :: rest => insertName name (sortNames rest)

@[simp]
theorem mem_insertName {name other : String} {names : List String} :
    other ∈ insertName name names ↔ other = name ∨ other ∈ names := by
  induction names with
  | nil => simp [insertName]
  | cons first rest ih =>
      unfold insertName
      split
      · exact List.mem_cons
      · simp only [List.mem_cons, ih]
        exact or_left_comm

@[simp]
theorem mem_sortNames {name : String} {names : List String} :
    name ∈ sortNames names ↔ name ∈ names := by
  induction names with
  | nil => exact Iff.rfl
  | cons first rest ih => simp [sortNames, ih]

private theorem pairwise_insertName {name : String} {names : List String}
    (sorted : names.Pairwise (· ≤ ·)) : (insertName name names).Pairwise (· ≤ ·) := by
  induction names with
  | nil => simp [insertName]
  | cons first rest ih =>
      have ⟨below, restSorted⟩ := List.pairwise_cons.mp sorted
      unfold insertName
      split
      · rename_i le
        refine List.pairwise_cons.mpr ⟨fun other mem => ?_, sorted⟩
        rcases List.mem_cons.mp mem with rfl | mem
        · exact le
        · exact String.le_trans le (below other mem)
      · rename_i notLe
        refine List.pairwise_cons.mpr ⟨fun other mem => ?_, ih restSorted⟩
        rcases mem_insertName.mp mem with rfl | mem
        · exact (String.le_total first other).resolve_right notLe
        · exact below other mem

/-- Sorted names are in ascending order. -/
theorem pairwise_sortNames (names : List String) : (sortNames names).Pairwise (· ≤ ·) := by
  induction names with
  | nil => exact .nil
  | cons first rest ih => exact pairwise_insertName ih

/-- The variables of an expression in ascending order. -/
def Expr.sortedVars (expr : Expr) : List String :=
  sortNames expr.vars

/-- The variables of several expressions in ascending order. -/
def Expr.sortedVarsOf (exprs : List Expr) : List String :=
  sortNames (exprs.flatMap Expr.vars).eraseDups

end Switching
