import Switching.Cover.Form
import Switching.Expr.Eval

/-!
# Values of two-level forms

The sum of products of some cubes is true exactly in the rows that some cube
contains; the product of sums of the same cubes is true exactly in the others.
A two-level form has no variables besides the inputs.
-/

namespace Switching

namespace Expr

/-- Literals joined by conjunction are true together. -/
theorem denote_chainD_and (valuation : String → Bool) (operands : List Expr) :
    (chainD .and true operands).denote valuation = operands.all (denote valuation) := by
  have fold (operands : List Expr) : ∀ first : Expr,
      (operands.foldl (.binary .and) first).denote valuation =
        (first.denote valuation && operands.all (denote valuation)) := by
    induction operands with
    | nil => simp
    | cons second rest ih =>
        intro first
        rw [List.foldl_cons, ih, List.all_cons, ← Bool.and_assoc]
        rfl
  cases operands with
  | nil => rfl
  | cons first rest => exact fold rest first

/-- Operands joined by disjunction are true if one of them is. -/
theorem denote_chainD_or (valuation : String → Bool) (operands : List Expr) :
    (chainD .or false operands).denote valuation = operands.any (denote valuation) := by
  have fold (operands : List Expr) : ∀ first : Expr,
      (operands.foldl (.binary .or) first).denote valuation =
        (first.denote valuation || operands.any (denote valuation)) := by
    induction operands with
    | nil => simp
    | cons second rest ih =>
        intro first
        rw [List.foldl_cons, ih, List.any_cons, ← Bool.or_assoc]
        rfl
  cases operands with
  | nil => rfl
  | cons first rest => exact fold rest first

/-- A chain has the variables of its operands. -/
theorem mem_occurrences_chainD {op : Connective} {unit : Bool} {operands : List Expr}
    {name : String} (mem : name ∈ (chainD op unit operands).occurrences) :
    ∃ operand ∈ operands, name ∈ operand.occurrences := by
  have fold (operands : List Expr) : ∀ first : Expr,
      name ∈ (operands.foldl (.binary op) first).occurrences →
        ∃ operand ∈ first :: operands, name ∈ operand.occurrences := by
    induction operands with
    | nil => simp
    | cons second rest ih =>
        intro first folded
        obtain ⟨operand, operandMem, nameMem⟩ := ih _ folded
        rcases List.mem_cons.mp operandMem with rfl | inRest
        · rcases List.mem_append.mp nameMem with inFirst | inSecond
          · exact ⟨first, List.mem_cons_self, inFirst⟩
          · exact ⟨second, by simp, inSecond⟩
        · exact ⟨operand, by simp [inRest], nameMem⟩
  cases operands with
  | nil => cases mem
  | cons first rest => exact fold rest first mem

@[simp]
theorem denote_literal (valuation : String → Bool) (name : String) (positive : Bool) :
    (literal name positive).denote valuation = (valuation name == positive) := by
  cases positive <;> simp [literal, denote]

theorem mem_occurrences_literal {name other : String} {positive : Bool} :
    name ∈ (literal other positive).occurrences ↔ name = other := by
  cases positive <;> simp [literal, occurrences]

end Expr

namespace Form

theorem literals_cons (form : Form) (place : Trit) (cube : Cube) (name : String)
    (inputs : List String) : form.literals (place :: cube) (name :: inputs) =
      (if place = .dash then [] else [(name, decide (place = match form with
        | .sumOfProducts => .one
        | .productOfSums => .zero))]) ++ form.literals cube inputs := by
  cases place <;> rfl

/-- All literals of a product hold exactly in its cube. -/
theorem all_literals (valuation : String → Bool) {inputs : List String} {cube : Cube}
    (width : cube.length = inputs.length) :
    (literals .sumOfProducts cube inputs).all (fun literal => valuation literal.1 == literal.2) =
      cube.covers (Cube.full (inputs.map valuation)) := by
  induction cube generalizing inputs with
  | nil => simp [List.length_eq_zero_iff.mp width.symm, literals, Cube.full, Cube.covers]
  | cons place rest ih =>
      cases inputs with
      | nil => cases width
      | cons name names =>
          rw [literals_cons, List.all_append, ih (Nat.succ.inj width)]
          cases place <;> cases value : valuation name <;>
            simp [Cube.full, Cube.covers, Trit.ofBool, value]

/-- Some literal of a sum holds exactly outside its cube. -/
theorem any_literals (valuation : String → Bool) {inputs : List String} {cube : Cube}
    (width : cube.length = inputs.length) :
    (literals .productOfSums cube inputs).any (fun literal => valuation literal.1 == literal.2) =
      !cube.covers (Cube.full (inputs.map valuation)) := by
  induction cube generalizing inputs with
  | nil => simp [List.length_eq_zero_iff.mp width.symm, literals, Cube.full, Cube.covers]
  | cons place rest ih =>
      cases inputs with
      | nil => cases width
      | cons name names =>
          rw [literals_cons, List.any_append, ih (Nat.succ.inj width)]
          cases place <;> cases value : valuation name <;>
            simp [Cube.full, Cube.covers, Trit.ofBool, value]

/-- A cube is read as a term that holds in it, or, for a product of sums, as
one that holds outside. -/
theorem denote_term (form : Form) (valuation : String → Bool) {inputs : List String}
    {cube : Cube} (width : cube.length = inputs.length) :
    (form.term inputs cube).denote valuation =
      (cube.covers (Cube.full (inputs.map valuation)) == form.emptyTerm) := by
  cases form with
  | sumOfProducts =>
      rw [term, connectives, emptyTerm, Expr.denote_chainD_and, List.all_map]
      simp only [Function.comp_def, Expr.denote_literal, beq_true]
      exact all_literals valuation width
  | productOfSums =>
      rw [term, connectives, emptyTerm, Expr.denote_chainD_or, List.any_map]
      simp only [Function.comp_def, Expr.denote_literal, beq_false]
      exact any_literals valuation width

/-- A list of cubes is read as a form that holds in them, or, for a product of
sums, as one that holds outside. -/
theorem denote_toExpr (form : Form) (valuation : String → Bool) {inputs : List String}
    {cubes : List Cube} (widths : ∀ cube ∈ cubes, cube.length = inputs.length) :
    (form.toExpr cubes inputs).denote valuation =
      (cubes.any (·.covers (Cube.full (inputs.map valuation))) == form.emptyTerm) := by
  have terms : ∀ cube ∈ cubes, (form.term inputs cube).denote valuation =
      (cube.covers (Cube.full (inputs.map valuation)) == form.emptyTerm) :=
    fun cube mem => form.denote_term valuation (widths cube mem)
  cases form with
  | sumOfProducts =>
      rw [toExpr, connectives, emptyTerm, Bool.not_true, Expr.denote_chainD_or, List.any_map,
        beq_true, Bool.eq_iff_iff, List.any_eq_true, List.any_eq_true]
      refine exists_congr fun cube => and_congr_right fun mem => ?_
      rw [Function.comp_apply, terms cube mem, emptyTerm, beq_true]
  | productOfSums =>
      rw [toExpr, connectives, emptyTerm, Bool.not_false, Expr.denote_chainD_and, List.all_map,
        beq_false, List.not_any_eq_all_not, Bool.eq_iff_iff, List.all_eq_true, List.all_eq_true]
      refine forall_congr' fun cube => imp_congr_right fun mem => ?_
      rw [Function.comp_apply, terms cube mem, emptyTerm, beq_false]

/-- The variables of a form are inputs. -/
theorem mem_inputs_of_mem_occurrences {form : Form} {inputs : List String} {cubes : List Cube}
    {name : String} (mem : name ∈ (form.toExpr cubes inputs).occurrences) : name ∈ inputs := by
  obtain ⟨_, termMem, inTerm⟩ := Expr.mem_occurrences_chainD mem
  obtain ⟨cube, -, rfl⟩ := List.mem_map.mp termMem
  obtain ⟨_, literalMem, inLiteral⟩ := Expr.mem_occurrences_chainD inTerm
  obtain ⟨⟨other, positive⟩, listed, rfl⟩ := List.mem_map.mp literalMem
  obtain ⟨⟨place, input⟩, zipped, literal_eq⟩ := List.mem_map.mp listed
  cases literal_eq
  rw [Expr.mem_occurrences_literal.mp inLiteral]
  exact (List.of_mem_zip (List.mem_filter.mp zipped).1).2

end Form

end Switching
