import Switching.Expr.Names
import Switching.Expr.Token

/-!
# Names

Sorting keeps the number of names and whether they are different, so the
variables of expressions are listed once each.  Whether they are names of the
expression language can be decided.
-/

namespace Switching

/-! ## Sorted names -/

@[simp]
theorem length_insertName (name : String) (names : List String) :
    (insertName name names).length = names.length + 1 := by
  induction names with
  | nil => rfl
  | cons first rest ih =>
      unfold insertName
      split
      · rfl
      · rw [List.length_cons, ih, List.length_cons]

@[simp]
theorem length_sortNames (names : List String) : (sortNames names).length = names.length := by
  induction names with
  | nil => rfl
  | cons first rest ih => rw [sortNames, length_insertName, ih, List.length_cons]

theorem nodup_insertName {name : String} {names : List String} (fresh : name ∉ names)
    (nodup : names.Nodup) : (insertName name names).Nodup := by
  induction names with
  | nil => simp [insertName]
  | cons first rest ih =>
      unfold insertName
      split
      · exact List.nodup_cons.mpr ⟨fresh, nodup⟩
      · rw [List.nodup_cons] at nodup
        rw [List.mem_cons, not_or] at fresh
        refine List.nodup_cons.mpr ⟨fun mem => ?_, ih fresh.2 nodup.2⟩
        rcases mem_insertName.mp mem with same | later
        · exact fresh.1 same.symm
        · exact nodup.1 later

/-- Sorting keeps different names different. -/
theorem nodup_sortNames {names : List String} (nodup : names.Nodup) :
    (sortNames names).Nodup := by
  induction names with
  | nil => exact .nil
  | cons first rest ih =>
      rw [List.nodup_cons] at nodup
      exact nodup_insertName (fun mem => nodup.1 (mem_sortNames.mp mem)) (ih nodup.2)

/-- Different names are sorted in strictly ascending order. -/
theorem ascending_sortNames {names : List String} (nodup : names.Nodup) :
    (sortNames names).Pairwise (· < ·) := by
  refine ((pairwise_sortNames names).and (nodup_sortNames nodup)).imp ?_
  rintro first second ⟨le, differ⟩
  exact String.not_le.mp fun ge => differ (String.le_antisymm le ge)

/-- Erasing repetitions leaves none. -/
theorem nodup_eraseDups (names : List String) : names.eraseDups.Nodup := by
  induction length_eq : names.length using Nat.strongRecOn generalizing names with
  | ind length ih =>
      cases names with
      | nil => exact .nil
      | cons first rest =>
          rw [List.eraseDups_cons, List.nodup_cons]
          refine ⟨fun mem => ?_, ih _ ?_ _ rfl⟩
          · simp at mem
          · rw [← length_eq, List.length_cons]
            exact Nat.lt_succ_of_le (List.length_filter_le _ _)

namespace Expr

theorem mem_vars {expr : Expr} {name : String} : name ∈ expr.vars ↔ name ∈ expr.occurrences :=
  List.mem_eraseDups

@[simp]
theorem mem_sortedVars {expr : Expr} {name : String} :
    name ∈ expr.sortedVars ↔ name ∈ expr.occurrences := by
  rw [sortedVars, mem_sortNames, mem_vars]

theorem nodup_sortedVars (expr : Expr) : expr.sortedVars.Nodup :=
  nodup_sortNames (nodup_eraseDups _)

theorem mem_sortedVarsOf {exprs : List Expr} {name : String} :
    name ∈ sortedVarsOf exprs ↔ ∃ expr ∈ exprs, name ∈ expr.occurrences := by
  simp only [sortedVarsOf, mem_sortNames, List.mem_eraseDups, List.mem_flatMap, mem_vars]

theorem nodup_sortedVarsOf (exprs : List Expr) : (sortedVarsOf exprs).Nodup :=
  nodup_sortNames (nodup_eraseDups _)

theorem ascending_sortedVarsOf (exprs : List Expr) : (sortedVarsOf exprs).Pairwise (· < ·) :=
  ascending_sortNames (nodup_eraseDups _)

end Expr

/-! ## Names of the expression language -/

theorem isName_iff {name : String} :
    IsName name ↔ name.toList.head?.any startsName && name.toList.tail.all continuesName := by
  unfold IsName
  cases name.toList with
  | nil => simp
  | cons first rest =>
      simp only [List.head?_cons, Option.any_some, List.tail_cons, Bool.and_eq_true,
        List.all_eq_true]
      constructor
      · rintro ⟨_, _, same, starts, continues⟩
        cases same
        exact ⟨starts, continues⟩
      · rintro ⟨starts, continues⟩
        exact ⟨first, rest, rfl, starts, continues⟩

instance : DecidablePred IsName := fun _ =>
  decidable_of_iff _ isName_iff.symm

/-- All variables of an expression are names of the expression language. -/
def Expr.HasNames (expr : Expr) : Prop :=
  ∀ name ∈ expr.occurrences, IsName name

instance (expr : Expr) : Decidable expr.HasNames :=
  inferInstanceAs (Decidable (∀ name ∈ expr.occurrences, IsName name))

theorem Expr.hasNames_binary {op : Connective} {left right : Expr} :
    (binary op left right).HasNames ↔ left.HasNames ∧ right.HasNames :=
  List.forall_mem_append

end Switching
