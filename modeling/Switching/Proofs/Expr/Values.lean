import Switching.Expr.Eval

/-!
# Values under assignments

An assignment of bindings for different names has exactly these bindings.  An
expression whose variables all have values is evaluated to what it denotes, and
the values of other names do not matter.
-/

namespace Switching

namespace Assignment

private theorem value?_foldl_insert_of_notMem {name : String} (bindings : List (String × Bool)) :
    ∀ {start : Assignment}, name ∉ bindings.map Prod.fst →
      (bindings.foldl (fun assignment binding => assignment.insert binding.1 binding.2)
        start).value? name = start.value? name := by
  induction bindings with
  | nil => intros; rfl
  | cons first rest ih =>
      intro start absent
      rw [List.map_cons, List.mem_cons, not_or] at absent
      rw [List.foldl_cons, ih absent.2, value?_insert, if_neg absent.1]

private theorem value?_foldl_insert_of_mem {name : String} {value : Bool}
    (bindings : List (String × Bool)) :
    ∀ {start : Assignment}, (bindings.map Prod.fst).Nodup → (name, value) ∈ bindings →
      (bindings.foldl (fun assignment binding => assignment.insert binding.1 binding.2)
        start).value? name = some value := by
  induction bindings with
  | nil => simp
  | cons first rest ih =>
      intro start nodup mem
      rw [List.map_cons, List.nodup_cons] at nodup
      rcases List.mem_cons.mp mem with rfl | later
      · rw [List.foldl_cons, value?_foldl_insert_of_notMem rest nodup.1, value?_insert,
          if_pos rfl]
      · exact ih nodup.2 later

/-- The assignment of bindings for different names has all these bindings. -/
theorem value?_ofList {bindings : List (String × Bool)} (nodup : (bindings.map Prod.fst).Nodup)
    {name : String} {value : Bool} (mem : (name, value) ∈ bindings) :
    (ofList bindings).value? name = some value :=
  value?_foldl_insert_of_mem bindings nodup mem

/-- The assignment of some bindings has no others. -/
theorem value?_ofList_of_notMem {bindings : List (String × Bool)} {name : String}
    (absent : name ∉ bindings.map Prod.fst) : (ofList bindings).value? name = none :=
  value?_foldl_insert_of_notMem bindings absent

/-- All of some names have a value. -/
def Assigns (assignment : Assignment) (names : List String) : Prop :=
  ∀ name ∈ names, (assignment.value? name).isSome = true

/-- The valuation that agrees with an assignment where it has values. -/
def valuation (assignment : Assignment) (name : String) : Bool :=
  (assignment.value? name).getD false

theorem value?_eq_some_valuation {assignment : Assignment} {name : String}
    (assigned : (assignment.value? name).isSome = true) :
    assignment.value? name = some (assignment.valuation name) := by
  obtain ⟨value, value_eq⟩ := Option.isSome_iff_exists.mp assigned
  rw [valuation, value_eq, Option.getD_some]

end Assignment

/-- An expression whose variables are assigned has the value that it denotes. -/
theorem Expr.evaluate_eq_ok {assignment : Assignment} {expr : Expr}
    (assigned : assignment.Assigns expr.occurrences) :
    expr.evaluate assignment = .ok (expr.denote assignment.valuation) :=
  evaluate_eq_ok_denote fun name mem => Assignment.value?_eq_some_valuation (assigned name mem)

/-- The value of an expression depends on the values of its variables only. -/
theorem Expr.denote_congr {expr : Expr} {first second : String → Bool}
    (agree : ∀ name ∈ expr.occurrences, first name = second name) :
    expr.denote first = expr.denote second := by
  induction expr with
  | constant value => rfl
  | var name => exact agree name (List.mem_singleton_self name)
  | not operand ih => rw [denote, denote, ih agree]
  | binary op left right leftIh rightIh =>
      have inLeft := leftIh fun name mem => agree name (List.mem_append_left _ mem)
      have inRight := rightIh fun name mem => agree name (List.mem_append_right _ mem)
      rw [denote, denote, inLeft, inRight]

end Switching
