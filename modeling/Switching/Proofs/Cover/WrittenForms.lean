import Switching.Proofs.Cover.TwoLevelForm
import Switching.Proofs.Expr.WrittenText

/-!
# Written two-level forms

The text of some cubes is the text that is written for their expression in the
place of an operand of its outer connective.  In that place a product stands
without parentheses and a sum of several literals within them, also if it is the
only one.  Such a text is hardly nested, so the expression is read back from it,
however many cubes there are.
-/

namespace Switching

namespace Expr

variable {α : Type} {op : Connective} {unit : Bool} {operands : List Expr}

/-! ## Chains -/

/-- In a place that requires its own precedence, an operation is written without
parentheses. -/
theorem renderAt_binary_self (op : Connective) (left right : Expr) :
    (binary op left right).renderAt op.precedence =
      left.renderAt op.precedence ++ op.symbol ++ right.renderAt (op.precedence + 1) := by
  rw [renderAt, if_neg (Nat.lt_irrefl _)]

/-- Several operands of one connective are written one after the other, in
parentheses if the place requires more than the precedence of the connective. -/
theorem renderAt_foldl_binary (op : Connective) (floor : Nat) (rest : List Expr) :
    ∀ first second : Expr,
      ((second :: rest).foldl (.binary op) first).renderAt floor =
        let text := op.symbol.intercalate
          (first.renderAt op.precedence :: (second :: rest).map (renderAt (op.precedence + 1)))
        if op.precedence < floor then "(" ++ text ++ ")" else text := by
  -- The first two operands are written together as the first operand of the rest.
  induction rest with
  | nil =>
      intro first second
      simp only [List.foldl_cons, List.foldl_nil, renderAt, List.map_cons, List.map_nil,
        String.intercalate_cons_cons, String.intercalate_singleton]
  | cons third rest ih =>
      intro first second
      rw [List.foldl_cons, ih (.binary op first second) third, renderAt_binary_self,
        String.intercalate_cons_append, ← String.intercalate_cons_cons]
      rfl

/-- A chain whose operands are written alike in the first and in the later
places is written as these texts with the symbol of the connective between
them. -/
theorem renderAt_chainD_cons_cons {operand : α → Expr} {text : α → String} (floor : Nat)
    (first second : α) (rest : List α)
    (asFirst : (operand first).renderAt op.precedence = text first)
    (asLater : ∀ item ∈ second :: rest, (operand item).renderAt (op.precedence + 1) = text item) :
    (chainD op unit ((first :: second :: rest).map operand)).renderAt floor =
      let joined := op.symbol.intercalate ((first :: second :: rest).map text)
      if op.precedence < floor then "(" ++ joined ++ ")" else joined := by
  have texts_eq : ((second :: rest).map operand).map (renderAt (op.precedence + 1)) =
      (second :: rest).map text := by
    rw [List.map_map]
    exact List.map_congr_left asLater
  rw [List.map_cons (f := text), ← texts_eq, ← asFirst]
  exact renderAt_foldl_binary op floor (rest.map operand) (operand first) (operand second)

/-- In a place that requires the precedence of its connective, a chain is written
without parentheses. -/
theorem renderAt_chainD {operand : α → Expr} {text : α → String} {items : List α}
    (asFirst : ∀ item ∈ items, (operand item).renderAt op.precedence = text item)
    (asLater : ∀ item ∈ items, (operand item).renderAt (op.precedence + 1) = text item) :
    (chainD op unit (items.map operand)).renderAt op.precedence =
      if items.isEmpty then constantText unit else op.symbol.intercalate (items.map text) := by
  match items with
  | [] => rfl
  | [only] =>
      rw [List.map_singleton, List.map_singleton, String.intercalate_singleton]
      exact asFirst only List.mem_cons_self
  | first :: second :: rest =>
      rw [renderAt_chainD_cons_cons op.precedence first second rest
        (asFirst first List.mem_cons_self)
        fun item mem => asLater item (List.mem_cons_of_mem first mem)]
      simp only [Nat.lt_irrefl, if_false]
      rfl

/-- A chain is nested as deeply as its operands, if they are written in later
places. -/
theorem writtenNesting_chainD_le {bound : Nat}
    (each : ∀ operand ∈ operands, operand.writtenNesting (op.precedence + 1) ≤ bound) :
    (chainD op unit operands).writtenNesting op.precedence ≤ bound := by
  have fold (operands : List Expr) : ∀ first : Expr, first.writtenNesting op.precedence ≤ bound →
      (∀ operand ∈ operands, operand.writtenNesting (op.precedence + 1) ≤ bound) →
      (operands.foldl (.binary op) first).writtenNesting op.precedence ≤ bound := by
    induction operands with
    | nil => exact fun _ firstLe _ => firstLe
    | cons second rest ih =>
        intro first firstLe restLe
        rw [List.forall_mem_cons] at restLe
        refine ih (.binary op first second) ?_ restLe.2
        rw [writtenNesting_binary]
        exact Nat.max_le.mpr ⟨firstLe, restLe.1⟩
  cases operands with
  | nil => exact Nat.zero_le bound
  | cons first rest =>
      rw [List.forall_mem_cons] at each
      have firstLe : first.writtenNesting op.precedence ≤ bound :=
        Nat.le_trans (first.writtenNesting_mono (Nat.le_succ _)) each.1
      exact fold rest first firstLe each.2

theorem renderAt_literal (floor : Nat) (literal : String × Bool) :
    (Expr.literal literal.1 literal.2).renderAt floor = Form.literalText literal := by
  obtain ⟨name, positive⟩ := literal
  cases positive <;> rfl

theorem writtenNesting_literal_le (floor : Nat) (name : String) (positive : Bool) :
    (literal name positive).writtenNesting floor ≤ 1 := by
  cases positive
  · exact Nat.le_refl 1
  · exact Nat.zero_le 1

end Expr

namespace Form

/-! ## Terms -/

/-- The text of a product of literals is written in every place that requires no
more than the precedence of conjunction. -/
theorem renderAt_product {floor : Nat} (low : floor ≤ Connective.and.precedence)
    (literals : List (String × Bool)) :
    (Expr.chainD .and true
      (literals.map fun (name, positive) => Expr.literal name positive)).renderAt floor =
        productText literals := by
  match literals with
  | [] => rfl
  | [only] =>
      refine (Expr.renderAt_literal floor only).trans ?_
      rw [productText, List.map_singleton, String.intercalate_singleton]
      rfl
  | first :: second :: rest =>
      refine (Expr.renderAt_chainD_cons_cons floor first second rest
        (Expr.renderAt_literal _ first) fun literal _ => Expr.renderAt_literal _ literal).trans ?_
      rw [if_neg (Nat.not_lt.mpr low)]
      rfl

/-- The text of a sum of literals is written in every place that requires more
than the precedence of disjunction. -/
theorem renderAt_sum {floor : Nat} (high : Connective.or.precedence < floor)
    (literals : List (String × Bool)) :
    (Expr.chainD .or false
      (literals.map fun (name, positive) => Expr.literal name positive)).renderAt floor =
        sumText literals := by
  match literals with
  | [] => rfl
  | [only] => exact Expr.renderAt_literal floor only
  | first :: second :: rest =>
      refine (Expr.renderAt_chainD_cons_cons floor first second rest
        (Expr.renderAt_literal _ first) fun literal _ => Expr.renderAt_literal _ literal).trans ?_
      rw [if_pos high]
      rfl

/-- Terms are nested at most twice, in a negation and in the parentheses around
a sum. -/
theorem writtenNesting_term_le (form : Form) (inputs : List String) (cube : Cube) (floor : Nat) :
    (form.term inputs cube).writtenNesting floor ≤ 2 := by
  have own : (form.term inputs cube).writtenNesting form.connectives.1.precedence ≤ 1 := by
    apply Expr.writtenNesting_chainD_le
    intro operand mem
    obtain ⟨⟨name, positive⟩, -, rfl⟩ := List.mem_map.mp mem
    exact Expr.writtenNesting_literal_le _ name positive
  exact Nat.le_trans (Expr.writtenNesting_le_succ _ _ _) (Nat.succ_le_succ own)

/-! ## Forms -/

/-- The text of some cubes is that of their expression in a place that requires
the precedence of the outer connective. -/
theorem render_eq_renderAt (form : Form) (cubes : List Cube) (inputs : List String) :
    form.render cubes inputs =
      (form.toExpr cubes inputs).renderAt form.connectives.2.precedence := by
  symm
  cases form with
  | sumOfProducts =>
      exact Expr.renderAt_chainD (fun cube _ => renderAt_product (by decide) _)
        fun cube _ => renderAt_product (by decide) _
  | productOfSums =>
      exact Expr.renderAt_chainD (fun cube _ => renderAt_sum (by decide) _)
        fun cube _ => renderAt_sum (by decide) _

theorem writtenNesting_toExpr_le (form : Form) (cubes : List Cube) (inputs : List String) :
    (form.toExpr cubes inputs).writtenNesting form.connectives.2.precedence ≤ 2 := by
  apply Expr.writtenNesting_chainD_le
  intro operand mem
  obtain ⟨cube, -, rfl⟩ := List.mem_map.mp mem
  exact writtenNesting_term_le form inputs cube _

/-- The text of some cubes is read as their expression, if the inputs have names
of the expression language. -/
theorem parse_render_eq_ok_toExpr (form : Form) (cubes : List Cube) {inputs : List String}
    (named : ∀ name ∈ inputs, IsName name) :
    parse (form.render cubes inputs) = .ok (form.toExpr cubes inputs) := by
  have names : (form.toExpr cubes inputs).HasNames := fun name occurs =>
    named name (mem_inputs_of_mem_occurrences occurs)
  have fits : (form.toExpr cubes inputs).writtenNesting form.connectives.2.precedence ≤
      maxNesting :=
    Nat.le_trans (writtenNesting_toExpr_le form cubes inputs) (by decide)
  rw [render_eq_renderAt]
  exact parse_renderAt names fits

/-- Cubes of several lengths, among them one without literals and one that is
longer than the list of inputs. -/
def unevenCubes : List Cube :=
  [[.one, .zero], [.dash, .dash], [.zero], [.dash, .one, .zero]]

theorem unevenCubes_parse_render :
    (∀ name ∈ ["a", "b₁"], IsName name) ∧
      productOfSums.render unevenCubes ["a", "b₁"] = "(¬a + b₁)・0・a・¬b₁" ∧
      parse (productOfSums.render unevenCubes ["a", "b₁"]) =
        .ok (productOfSums.toExpr unevenCubes ["a", "b₁"]) := by
  have named : ∀ name ∈ ["a", "b₁"], IsName name := by decide
  exact ⟨named, by decide, parse_render_eq_ok_toExpr productOfSums unevenCubes named⟩

end Form

end Switching
